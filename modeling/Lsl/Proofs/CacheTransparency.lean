import Lsl.Proofs.Fingerprints
import Lsl.Proofs.KeptResults
import Lsl.Proofs.StoredScripts
import Mathlib.Data.List.Induction

/-! Compiles through a cache against compiles without one. A cache that starts empty holds what earlier
requests have compiled, each under the fingerprint of its request. As long as the digests of what is asked
for do not collide, requests share a fingerprint just when their stored trees differ at most in the signs of
zeros and the payloads of NaNs and all else agrees. -/
namespace Lsl

open List

variable {e : CompileError} {out : Compiled}

variable {past : List Request} {s : Script}

/-- What a caller sees of a compiled script. -/
structure CompileView where
  output : Bytes
  backend : String
  warnings : Int
  diagnostics : List Diagnostic
  /-- What is written while it is compiled. -/
  log : String
deriving DecidableEq

/-- What a caller sees of a failure. -/
structure FailureView where
  message : String
  /-- Whether errors were found in the script. -/
  rejected : Bool
  diagnostics : List Diagnostic
  log : String
deriving DecidableEq

def CachedResult.view (r : CachedResult) : CompileView :=
  { output := r.output, backend := r.backend, warnings := r.warnings, diagnostics := r.diagnostics,
    log := Diagnostic.log r.diagnostics }

def CompileError.isRejection : CompileError → Bool
  | failed _ => true
  | _ => false

def CompileError.view (e : CompileError) : FailureView :=
  { message := e.message, rejected := e.isRejection, diagnostics := e.diagnostics,
    log := Diagnostic.log e.diagnostics }

def CachedCompileError.view : CachedCompileError → FailureView
  | compile e => e.view
  | e => { message := e.message, rejected := false, diagnostics := [], log := "" }

def seen (result : Except CompileError Compiled) : Except FailureView CompileView :=
  (result.map fun c => c.result.view).mapError CompileError.view

/-- A compile that is asked for. -/
structure Request where
  id : String
  now : Int
  script : Option Script
  options : CompileOptions

namespace Request

def tree (r : Request) : Option Node := r.script.map Node.ofScript

def key (r : Request) : Except FingerprintError Bytes := r.options.key r.script

def compiled (r : Request) : Except CompileError Compiled := compile r.script r.options

def outcome (r : Request) : Except FailureView CompileView := seen r.compiled

/-- What is digested for a script with the options of a request. -/
def inputs (r : Request) (s : Script) : Bytes :=
  Fingerprint.inputs s.encode r.options.theLibrary.fingerprint r.options.privileged
    r.options.theBackend.name r.options.fingerprintMemory

/-- All that is digested for a request. -/
def digested (r : Request) : List Bytes :=
  Fingerprint.library r.options.theLibrary :: (r.script.map r.inputs).toList

def fits (r : Request) : Bool :=
  r.tree.all Node.fits && r.options.theLibrary.functions.all Fingerprint.functionFits &&
    Fingerprint.wholeFits r.options.memory

/-- An image that is chosen as the output has the memory that is asked for. -/
def Plain (r : Request) : Prop :=
  ∀ memory, r.options.backend = some (.image memory) → memory = r.options.memory

/-- Requests that differ at most in the time, the notes of the script, the signs of zeros and the payloads
of NaNs. -/
structure Alike (p q : Request) : Prop where
  tree : p.tree.map Node.canonical = q.tree.map Node.canonical
  library : p.options.theLibrary = q.options.theLibrary
  privileged : p.options.privileged = q.options.privileged
  backend : p.options.theBackend.name = q.options.theBackend.name
  memory : p.options.fingerprintMemory = q.options.fingerprintMemory

end Request

/-- Different messages of a list have different digests. -/
def CollisionFree (messages : List Bytes) : Prop :=
  ∀ a ∈ messages, ∀ b ∈ messages, Sha256.digest a = Sha256.digest b → a = b

theorem CollisionFree.mono {messages messages' : List Bytes} (h : CollisionFree messages)
    (hSubset : messages' ⊆ messages) : CollisionFree messages' :=
  fun a ha b hb => h a (hSubset ha) b (hSubset hb)

instance (messages : List Bytes) : Decidable (CollisionFree messages) :=
  inferInstanceAs (Decidable (∀ a ∈ messages, ∀ b ∈ messages, Sha256.digest a = Sha256.digest b →
    a = b))

namespace Cache

def perform (c : Cache) (r : Request) : Except CachedCompileError CacheAnswer :=
  c.compile r.id r.now r.script r.options

/-- What is seen of a request that is compiled through a cache. -/
def answer (c : Cache) (r : Request) : Except FailureView CompileView :=
  ((c.perform r).map fun a => a.result.view).mapError CachedCompileError.view

/-- Whether a request is answered from the cache. -/
def hits (c : Cache) (r : Request) : Bool :=
  match c.perform r with
  | .ok a => a.hit
  | .error _ => false

def next (c : Cache) (r : Request) : Cache :=
  match c.perform r with
  | .ok a => a.cache
  | .error _ => c

def after (rs : List Request) : Cache := rs.foldl next {}

end Cache

namespace Image

theorem budget_pos (memory : Int) : 0 < budget memory := by
  unfold budget defaultMemory
  split <;> omega

theorem assemble_eq_of_budget {memory memory' : Int} (h : budget memory = budget memory') (p : Program) :
    assemble p memory = assemble p memory' := by
  unfold assemble
  rw [h]

end Image

namespace Backend

theorem length_name (b : Backend) : (Text.bytes b.name).length < 2 ^ 32 := by
  cases b with
  | image memory => exact (by decide : (Text.bytes "lso").length < 2 ^ 32)
  | assembly => decide

theorem emit_ne_nil {b : Backend} {p : Program} {out : Bytes} (h : b.emit p = .ok out) : out ≠ [] := by
  cases b with
  | image memory =>
    have hPositive := Image.budget_pos memory
    have hBudget : Image.budget (Image.budget memory) = Image.budget memory := if_neg (by omega)
    rw [emit, ← Image.assemble_eq_of_budget hBudget] at h
    obtain ⟨s, _, _, hBytes⟩ := Image.assemble_eq_ok hPositive (emit_image h)
    intro hEmpty
    have hLength := congrArg List.length (hBytes.symm.trans hEmpty)
    simp [Registers.size] at hLength
  | assembly =>
    obtain ⟨text, hGenerate, hBytes⟩ := emit_assembly h
    have hHead := Assembly.head_generate hGenerate
    intro hEmpty
    obtain rfl : text = "" := Text.bytes_inj.mp (hBytes.trans hEmpty)
    cases hHead

end Backend

/-- What is compiled can be kept. -/
theorem compile_output_ne_nil {script : Option Script} {o : CompileOptions} {c : Compiled}
    (h : compile script o = .ok c) : c.output ≠ [] := by
  obtain ⟨_, _, _, _, _, hOutput⟩ := compile_eq_ok h
  exact Backend.emit_ne_nil hOutput

/-- An output of the same name is seen alike. -/
theorem Session.finish_seen (s : Session) {b b' : Backend} {p : Program} (hName : b.name = b'.name)
    (hEmit : b.emit p = b'.emit p) : seen (s.finish b p) = seen (s.finish b' p) := by
  unfold finish
  rw [hEmit]
  cases b'.emit p with
  | ok output =>
    simp only [seen, Except.map, Except.mapError, Compiled.result, hName]
    rfl
  | error e =>
    dsimp only
    split
    · rfl
    · have hMessage : (CompileError.backend b e s.diagnostics).message =
          (CompileError.backend b' e s.diagnostics).message := by
        rw [CompileError.message, CompileError.message, hName]
      show Except.error (CompileError.view _) = Except.error (CompileError.view _)
      rw [CompileError.view, CompileError.view, hMessage]
      rfl

/-- A compile is seen alike with the same library, privilege and output. -/
theorem compile_seen {o o' : CompileOptions} (hLibrary : o.theLibrary = o'.theLibrary)
    (hPrivileged : o.privileged = o'.privileged) (hName : o.theBackend.name = o'.theBackend.name)
    (hEmit : ∀ p, o.theBackend.emit p = o'.theBackend.emit p) (script : Option Script) :
    seen (compile script o) = seen (compile script o') := by
  cases script with
  | none => rfl
  | some t =>
    have hSession : o.session t = o'.session t := by
      rw [CompileOptions.session, hLibrary, hPrivileged]
      rfl
    unfold compile
    dsimp only
    rw [hSession]
    generalize (do (← (o'.session t).analyze).emit : Except Fault (Session × Option Program)) = run
    rcases run with f | ⟨s, _ | p⟩
    · rfl
    · rfl
    · exact s.finish_seen hName (hEmit p)

namespace Request

variable {p q r : Request}

theorem outcome_ok {c : Compiled} (h : r.compiled = .ok c) : r.outcome = .ok c.result.view := by
  rw [outcome, h]
  rfl

theorem outcome_error (h : r.compiled = .error e) : r.outcome = .error e.view := by
  rw [outcome, h]
  rfl

theorem key_some (h : r.script = some s) : r.key = .ok (Sha256.digest (r.inputs s)) := by
  rw [key, h]
  rfl

theorem key_none (h : r.script = none) : r.key = .error .noScript := by
  rw [key, h]
  rfl

theorem mem_digested (h : r.script = some s) : r.inputs s ∈ r.digested := by
  simp [digested, h]

theorem fits_tree (hFits : r.fits = true) (h : r.script = some s) : (Node.ofScript s).fits = true := by
  simp only [fits, tree, h, Bool.and_eq_true] at hFits
  exact hFits.1.1

theorem fits_library (hFits : r.fits = true) :
    r.options.theLibrary.functions.all Fingerprint.functionFits = true := by
  simp only [fits, Bool.and_eq_true] at hFits
  exact hFits.1.2

theorem fits_memory (hFits : r.fits = true) : Fingerprint.wholeFits r.options.fingerprintMemory = true := by
  simp only [fits, Bool.and_eq_true] at hFits
  unfold CompileOptions.fingerprintMemory
  split
  · decide
  · exact hFits.2

/-- Requests with a script share their key just when they are alike. -/
theorem key_eq_iff {t : Script} (hp : p.fits = true) (hq : q.fits = true) (hScript : q.script = some t)
    (hDigests : CollisionFree (p.digested ++ q.digested)) : p.key = q.key ↔ p.Alike q := by
  constructor
  · intro hKey
    cases hScript' : p.script with
    | none => cases (key_none hScript').symm.trans (hKey.trans (key_some hScript))
    | some s =>
      rw [key_some hScript', key_some hScript] at hKey
      have hInputs := hDigests _ (mem_append_left _ (mem_digested hScript')) _
        (mem_append_right _ (mem_digested hScript)) (Except.ok.inj hKey)
      obtain ⟨hTree, hLibrary, hPrivileged, hBackend, hMemory⟩ :=
        Fingerprint.inputs_inj (fits_tree hp hScript') (fits_tree hq hScript) (Sha256.length_digest _)
          (Sha256.length_digest _) (Backend.length_name _) (Backend.length_name _) (fits_memory hp)
          (fits_memory hq) hInputs
      have hFunctions := hDigests _ (mem_append_left _ mem_cons_self) _
        (mem_append_right _ mem_cons_self) hLibrary
      refine ⟨?_, Fingerprint.library_inj (fits_library hp) (fits_library hq) hFunctions, hPrivileged,
        hBackend, hMemory⟩
      simp only [tree, hScript', hScript, Option.map_some, hTree]
  · intro hAlike
    cases hScript' : p.script with
    | none => simpa [tree, hScript', hScript] using hAlike.tree
    | some s =>
      have hTree : (Node.ofScript s).canonical = (Node.ofScript t).canonical := by
        simpa [tree, hScript', hScript] using hAlike.tree
      have hBytes : s.encode = t.encode := Node.encode_eq_of_canonical hTree
      rw [key_some hScript', key_some hScript, inputs, inputs, hBytes, hAlike.library, hAlike.privileged,
        hAlike.backend, hAlike.memory]

theorem Plain.theBackend (h : r.Plain) :
    r.options.theBackend = .image r.options.memory ∨ r.options.theBackend = .assembly := by
  unfold CompileOptions.theBackend
  cases hBackend : r.options.backend with
  | none => exact .inl rfl
  | some b =>
    cases b with
    | image memory => exact .inl (congrArg Backend.image (h memory hBackend))
    | assembly => exact .inr rfl

theorem budget_fingerprintMemory (o : CompileOptions) :
    Image.budget o.fingerprintMemory = Image.budget o.memory := by
  unfold CompileOptions.fingerprintMemory
  split
  · next hDefault =>
    rw [hDefault.2]
    rfl
  · rfl

theorem Alike.refl (r : Request) : r.Alike r := ⟨rfl, rfl, rfl, rfl, rfl⟩

/-- Plain requests ask for the same output if they show the same name and the same memory. -/
theorem emit_eq (hp : p.Plain) (hq : q.Plain) (hName : p.options.theBackend.name = q.options.theBackend.name)
    (hMemory : p.options.fingerprintMemory = q.options.fingerprintMemory) (program : Program) :
    p.options.theBackend.emit program = q.options.theBackend.emit program := by
  rcases hp.theBackend with hImage | hText <;> rcases hq.theBackend with hImage' | hText'
  · have hBudget : Image.budget p.options.memory = Image.budget q.options.memory := by
      rw [← budget_fingerprintMemory, ← budget_fingerprintMemory, hMemory]
    rw [hImage, hImage', Backend.emit, Backend.emit, Image.assemble_eq_of_budget hBudget]
  · rw [hImage, hText'] at hName
    exact absurd hName (of_decide_eq_false rfl)
  · rw [hText, hImage'] at hName
    exact absurd hName (of_decide_eq_false rfl)
  · rw [hText, hText']

/-- Alike requests with the same tree look the same when they are compiled. -/
theorem outcome_eq (hp : p.Plain) (hq : q.Plain) (hAlike : p.Alike q) (hTree : p.tree = q.tree) :
    p.outcome = q.outcome := by
  unfold outcome compiled
  cases hScript : p.script with
  | none =>
    have hScript' : q.script = none := by simpa [tree, hScript] using hTree.symm
    rw [hScript']
    rfl
  | some s =>
    obtain ⟨t, hScript', hStored⟩ : ∃ t, q.script = some t ∧ Node.ofScript t = Node.ofScript s := by
      simpa [tree, hScript] using hTree.symm
    rw [hScript', ← compile_eq_of_ofScript hStored, compile_seen hAlike.library hAlike.privileged
      hAlike.backend (emit_eq hp hq hAlike.backend hAlike.memory)]

end Request

namespace Cache

variable {c : Cache} {r : Request} {key : Bytes}

theorem perform_unkeyed {e : FingerprintError} (hKey : r.key = .error e) :
    c.perform r = .error (.fingerprint e) := by
  have hKey' : r.options.key r.script = .error e := hKey
  rw [perform, Cache.compile, hKey']
  rfl

theorem perform_held {e : CacheEntry} (hKey : r.key = .ok key) (hHeld : c.get? key = some e) :
    c.perform r = .ok { cache := c, hit := true, result := e.result } :=
  compile_hit hKey hHeld r.id r.now

theorem perform_failed (hKey : r.key = .ok key) (hFree : c.get? key = none)
    (hCompile : r.compiled = .error e) : c.perform r = .error (.compile e) := by
  have hKey' : r.options.key r.script = .ok key := hKey
  have hCompile' : Lsl.compile r.script r.options = .error e := hCompile
  rw [perform, Cache.compile, hKey', mapError_ok, ok_bind, hFree, hCompile']
  rfl

theorem erase_free (hFree : c.get? key = none) : c.erase key = c := by
  have hOther := List.find?_eq_none.mp hFree
  exact congrArg Cache.mk (List.filter_eq_self.mpr fun e he => by simpa using hOther e he)

theorem perform_fresh (hKey : r.key = .ok key) (hFree : c.get? key = none) (hCompile : r.compiled = .ok out) :
    c.perform r = .ok { cache := ⟨c.entries ++ [out.entry key r.id r.now]⟩, hit := false,
                        result := out.result } := by
  have hKey' : r.options.key r.script = .ok key := hKey
  have hCompile' : Lsl.compile r.script r.options = .ok out := hCompile
  have hOutput : (out.entry key r.id r.now).output.isEmpty = false :=
    List.isEmpty_eq_false_iff.mpr (compile_output_ne_nil hCompile')
  have hPut : c.put (out.entry key r.id r.now) = .ok ⟨c.entries ++ [out.entry key r.id r.now]⟩ := by
    rw [put, hOutput]
    show Except.ok (Cache.mk ((c.erase key).entries ++ _)) = _
    rw [erase_free hFree]
  rw [perform, Cache.compile, hKey', mapError_ok, ok_bind, hFree, hCompile']
  dsimp only
  rw [mapError_ok, ok_bind, hPut]
  rfl

/-- A cache holds what earlier requests have compiled, and nothing else. -/
structure Holds (c : Cache) (past : List Request) : Prop where
  origin : ∀ e ∈ c.entries, ∃ p ∈ past, p.key = .ok e.key ∧ p.outcome = .ok e.result.view
  kept : ∀ p ∈ past, ∀ key out, p.key = .ok key → p.compiled = .ok out → ∃ e, c.get? key = some e

/-- A request that adds nothing leaves a cache that holds what it held. -/
theorem Holds.of_unchanged (h : c.Holds past)
    (hKept : ∀ key out, r.key = .ok key → r.compiled = .ok out → ∃ e, c.get? key = some e) :
    c.Holds (past ++ [r]) := by
  refine ⟨fun e he => ?_, fun p hp key out hKey hCompile => ?_⟩
  · obtain ⟨p, hp, hFrom⟩ := h.origin e he
    exact ⟨p, mem_append_left _ hp, hFrom⟩
  · rcases List.mem_append.mp hp with hp | hp
    · exact h.kept p hp key out hKey hCompile
    · cases List.mem_singleton.mp hp
      exact hKept key out hKey hCompile

theorem Holds.of_fresh (h : c.Holds past) (hKey : r.key = .ok key) (hCompile : r.compiled = .ok out) :
    (Cache.mk (c.entries ++ [out.entry key r.id r.now])).Holds (past ++ [r]) := by
  refine ⟨fun e he => ?_, fun p hp key' out' hKey' hCompile' => ?_⟩
  · rcases List.mem_append.mp he with he | he
    · obtain ⟨p, hp, hFrom⟩ := h.origin e he
      exact ⟨p, mem_append_left _ hp, hFrom⟩
    · cases List.mem_singleton.mp he
      exact ⟨r, by simp, hKey, Request.outcome_ok hCompile⟩
  · rw [get?, List.find?_append]
    rcases List.mem_append.mp hp with hp | hp
    · obtain ⟨e, he⟩ := h.kept p hp key' out' hKey' hCompile'
      rw [get?] at he
      exact ⟨e, by rw [he]; rfl⟩
    · cases List.mem_singleton.mp hp
      cases hKey.symm.trans hKey'
      cases hFound : c.entries.find? (·.key == key) with
      | some e => exact ⟨e, rfl⟩
      | none => exact ⟨out.entry key r.id r.now, by simp [Compiled.entry]⟩

/-- A request leaves a cache that holds what it held, and what the request has compiled. -/
theorem Holds.next (h : c.Holds past) (r : Request) : (c.next r).Holds (past ++ [r]) := by
  cases hKey : r.key with
  | error e =>
    rw [Cache.next, perform_unkeyed hKey]
    exact h.of_unchanged fun key out hKey' _ => by cases hKey.symm.trans hKey'
  | ok key =>
    cases hFound : c.get? key with
    | some e =>
      rw [Cache.next, perform_held hKey hFound]
      refine h.of_unchanged fun key' out hKey' _ => ?_
      cases hKey.symm.trans hKey'
      exact ⟨e, hFound⟩
    | none =>
      cases hCompile : r.compiled with
      | error e =>
        rw [Cache.next, perform_failed hKey hFound hCompile]
        exact h.of_unchanged fun key' out _ hCompile' => by cases hCompile.symm.trans hCompile'
      | ok out =>
        rw [Cache.next, perform_fresh hKey hFound hCompile]
        exact h.of_fresh hKey hCompile

/-- After any requests, a cache that was empty holds what they have compiled. -/
theorem holds_after (past : List Request) : (after past).Holds past := by
  induction past using List.reverseRecOn with
  | nil => exact ⟨by simp [after], by simp⟩
  | append_singleton past r ih =>
    rw [after, foldl_append]
    exact ih.next r

/-- A request is answered by an earlier one with the same key that has compiled, or else by itself. -/
theorem answer_cases (h : c.Holds past) (hKey : r.key = .ok key) :
    (∃ p ∈ past, p.key = r.key ∧ p.outcome.isOk = true ∧ c.hits r = true ∧
      c.answer r = p.outcome) ∨
      (∀ p ∈ past, p.key = r.key → p.outcome.isOk = false) ∧ c.hits r = false ∧
        c.answer r = r.outcome := by
  cases hFound : c.get? key with
  | some e =>
    left
    obtain ⟨p, hp, hKeyOf, hOutcome⟩ := h.origin e (mem_of_find?_eq_some hFound)
    have hSame : e.key = key := by simpa using List.find?_some hFound
    refine ⟨p, hp, by rw [hKeyOf, hSame, hKey], by rw [hOutcome]; rfl, ?_, ?_⟩
    · rw [hits, perform_held hKey hFound]
    · rw [answer, perform_held hKey hFound, hOutcome]
      rfl
  | none =>
    right
    refine ⟨fun p hp hSame => ?_, ?_⟩
    · cases hCompile : p.compiled with
      | error e => rw [Request.outcome_error hCompile]; rfl
      | ok out =>
        obtain ⟨e, he⟩ := h.kept p hp key out (hSame.trans hKey) hCompile
        cases hFound.symm.trans he
    · cases hCompile : r.compiled with
      | error e =>
        rw [hits, answer, perform_failed hKey hFound hCompile, Request.outcome_error hCompile]
        exact ⟨rfl, rfl⟩
      | ok out =>
        rw [hits, answer, perform_fresh hKey hFound hCompile, Request.outcome_ok hCompile]
        exact ⟨rfl, rfl⟩

/-- A cache that starts empty answers each request as its compile would, unless an earlier request differs
from it in the sign of a zero or the payload of a NaN alone. -/
theorem answer_transparent (past : List Request) (call : Request)
    (hFits : ∀ r ∈ call :: past, r.fits = true) (hPlain : ∀ r ∈ call :: past, r.Plain)
    (hDigests : CollisionFree ((call :: past).flatMap Request.digested)) :
    (call.script = none → (after past).answer call =
      .error { message := "hash: nil script", rejected := false, diagnostics := [], log := "" }) ∧
    (call.script ≠ none →
      (∀ p ∈ past, p.key = call.key ↔ p.Alike call) ∧
      ((after past).hits call = true ↔ ∃ p ∈ past, p.Alike call ∧ p.outcome.isOk = true) ∧
      (∃ p ∈ call :: past, p.Alike call ∧ (after past).answer call = p.outcome) ∧
      ((∀ p ∈ past, p.Alike call → p.tree = call.tree) → (after past).answer call = call.outcome)) ∧
    (∀ p ∈ past, p.Alike call → p.tree = call.tree → p.outcome = call.outcome) := by
  have hSame : ∀ p ∈ past, p.Alike call → p.tree = call.tree → p.outcome = call.outcome := fun p hp =>
    Request.outcome_eq (hPlain p (mem_cons_of_mem _ hp)) (hPlain call mem_cons_self)
  refine ⟨fun hNone => ?_, fun hSome => ?_, hSame⟩
  · rw [answer, perform_unkeyed (Request.key_none hNone)]
    rfl
  · obtain ⟨t, hScript⟩ := Option.ne_none_iff_exists'.mp hSome
    have hKeys : ∀ p ∈ past, p.key = call.key ↔ p.Alike call := by
      intro p hp
      have hFits' := hFits p (mem_cons_of_mem _ hp)
      refine Request.key_eq_iff hFits' (hFits call mem_cons_self) hScript ?_
      refine hDigests.mono fun message hMessage => ?_
      rcases List.mem_append.mp hMessage with hMessage | hMessage
      · exact List.mem_flatMap.mpr ⟨p, mem_cons_of_mem _ hp, hMessage⟩
      · exact List.mem_flatMap.mpr ⟨call, mem_cons_self, hMessage⟩
    refine ⟨hKeys, ?_⟩
    rcases answer_cases (holds_after past) (Request.key_some hScript) with
      ⟨p, hp, hKey, hOk, hHit, hAnswer⟩ | ⟨hNone, hMiss, hAnswer⟩
    · have hAlike := (hKeys p hp).mp hKey
      refine ⟨⟨fun _ => ⟨p, hp, hAlike, hOk⟩, fun _ => hHit⟩,
        ⟨p, mem_cons_of_mem _ hp, hAlike, hAnswer⟩, fun hTrees => ?_⟩
      rw [hAnswer, hSame p hp hAlike (hTrees p hp hAlike)]
    · refine ⟨⟨fun hHit => ?_, fun ⟨p, hp, hAlike, hOk⟩ => ?_⟩,
        ⟨call, mem_cons_self, .refl call, hAnswer⟩, fun _ => hAnswer⟩
      · rw [hMiss] at hHit
        cases hHit
      · rw [hNone p hp ((hKeys p hp).mpr hAlike)] at hOk
        cases hOk

end Cache

def Script.numbered (x : Single) : Script :=
  { pos := {}
    globals := [.var { pos := {}, name := "g", ty := .float, init := .float {} x .void }]
    states := [some
      { pos := {}
        name := "default"
        events := [some
          { pos := {}, name := "state_entry", params := [], body := some { pos := {}, stmts := [] } }] }] }

def Request.numbered (x : Single) (memory : Int) : Request :=
  { id := "", now := 0, script := some (.numbered x), options := { library := some {}, memory } }

theorem Request.numbered_plain (x : Single) (memory : Int) : (Request.numbered x memory).Plain := by
  intro memory' hBackend
  cases hBackend

/-- An image for which no memory is asked answers for one with the usual memory. -/
theorem Cache.answer_transparent_memory :
    let asked : Request := .numbered .zero 16384
    let earlier : Request := .numbered .zero 0
    (asked.fits = true ∧ earlier.fits = true) ∧ (asked.Plain ∧ earlier.Plain) ∧
    CollisionFree ([asked, earlier].flatMap Request.digested) ∧ earlier.Alike asked ∧
    (Cache.after [earlier]).hits asked = true ∧ (Cache.after [earlier]).answer asked = asked.outcome := by
  intro asked earlier
  have hFits : asked.fits = true ∧ earlier.fits = true := by decide +kernel
  have hPlain : asked.Plain ∧ earlier.Plain := ⟨Request.numbered_plain _ _, Request.numbered_plain _ _⟩
  have hDigests : CollisionFree ([asked, earlier].flatMap Request.digested) := by decide +kernel
  have hAlike : earlier.Alike asked := ⟨rfl, rfl, rfl, rfl, rfl⟩
  have hTransparent := (Cache.answer_transparent [earlier] asked (by simpa using hFits)
    (by simpa using hPlain) hDigests).2.1 (by decide)
  refine ⟨hFits, hPlain, hDigests, hAlike, hTransparent.2.1.mpr ⟨earlier, by simp, hAlike, ?_⟩,
    hTransparent.2.2.2 ?_⟩
  · decide +kernel
  · intro p hp _
    rw [List.mem_singleton.mp hp]
    rfl

/-- The image for a negative zero is that for a zero, if the zero was compiled before. -/
theorem Cache.answer_unsigned :
    (Cache.after [.numbered .zero 160]).answer (.numbered ⟨0x80000000⟩ 160) ≠
      (Request.numbered ⟨0x80000000⟩ 160).outcome := by
  intro h
  have hOutputs := congrArg (fun o => o.toOption.map CompileView.output) h
  revert hOutputs
  decide +kernel

end Lsl
