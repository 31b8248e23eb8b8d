import Lsl.Command.Run
import Lsl.Proofs.AcceptedImages
import Lsl.Workspace

/-! The command with and without a cache. Where the cache holds what an earlier compile of the same script
made, the command does the same as without a cache, with one exception: the listing that is asked for
beside an assembly text is that of the program, which is not kept, and the text takes its place. -/
namespace Lsl

variable {p : Program} {script : Option Script} {o : CompileOptions} {e : CacheEntry} {file : Option String}

namespace Workspace

variable {α β : Type}

def withClock (w : Workspace) (t : Int) : Workspace := { w with clock := t }

def Looks (m : StateM Workspace α) : Prop := ∀ w, (m w).2 = w

def Untimed (m : StateM Workspace α) : Prop :=
  ∀ w t, m (w.withClock t) = ((m w).1, (m w).2.withClock t)

theorem bind_run {m : StateM Workspace α} {f : α → StateM Workspace β} {w w' : Workspace} {a : α}
    (h : m w = (a, w')) : (m >>= f) w = f a w' := by
  show f (m w).1 (m w).2 = f a w'
  rw [h]

theorem Looks.pure (a : α) : Looks (pure a : StateM Workspace α) := fun _ => rfl

theorem Looks.bind {m : StateM Workspace α} {f : α → StateM Workspace β} (hm : Looks m)
    (hf : ∀ a, Looks (f a)) : Looks (m >>= f) := by
  intro w
  show (f (m w).1 (m w).2).2 = w
  rw [hf, hm]

theorem Untimed.pure (a : α) : Untimed (pure a : StateM Workspace α) := fun _ _ => rfl

theorem Untimed.bind {m : StateM Workspace α} {f : α → StateM Workspace β} (hm : Untimed m)
    (hf : ∀ a, Untimed (f a)) : Untimed (m >>= f) := by
  intro w t
  show f (m (w.withClock t)).1 (m (w.withClock t)).2 = _
  rw [hm, hf]
  rfl

theorem Untimed.clock {m : StateM Workspace α} (h : Untimed m) (w : Workspace) :
    (m w).2.withClock w.clock = (m w).2 :=
  (congrArg Prod.snd (h w w.clock)).symm

theorem Untimed.settle {m : StateM Workspace α} (h : Untimed m) {w : Workspace} {t : Int}
    {x : α × Workspace} (hx : x = ((m w).1, (m w).2.withClock t)) :
    (x.1, x.2.withClock w.clock) = m w := by
  subst hx
  exact Prod.ext rfl (h.clock w)

theorem walk_withClock (w : Workspace) (t : Int) (place : Place) (names : List String) :
    (w.withClock t).walk place names = w.walk place names := by
  induction names generalizing place with
  | nil => rfl
  | cons n ns ih =>
    show (w.step place n ns.isEmpty >>= fun next => (w.withClock t).walk next ns) = _
    rw [walk]
    congr 1
    funext next
    exact ih next

theorem locate_withClock (w : Workspace) (t : Int) (p : String) :
    (w.withClock t).locate p = w.locate p := by
  unfold locate
  rw [walk_withClock]
  rfl

theorem find_withClock (w : Workspace) (t : Int) (p : String) : (w.withClock t).find p = w.find p := by
  unfold find
  rw [locate_withClock]
  rfl

theorem attempt_untimed {work : Workspace → Except FileError Workspace}
    (h : ∀ w t, work (w.withClock t) = (work w).map (·.withClock t)) : Untimed (attempt work) := by
  intro w t
  unfold attempt
  rw [h]
  cases work w with
  | error e => rfl
  | ok w' => rfl

theorem writeFile_untimed (p : String) (data : Bytes) :
    Untimed (Host.writeFile p data : StateM Workspace _) := by
  refine attempt_untimed fun w t => ?_
  unfold write
  simp only [locate_withClock]
  cases w.locate p with
  | error cause => rfl
  | ok place =>
    show (if w.at? place = some .directory || Path.endsInSlash p then _ else _) =
      Except.map _ (if _ then _ else _)
    split
    · rfl
    · rfl

theorem makeDirectory_untimed (p : String) : Untimed (Host.makeDirectory p : StateM Workspace _) := by
  refine attempt_untimed fun w t => ?_
  unfold makeDirectory
  simp only [locate_withClock]
  cases w.locate p with
  | error cause => rfl
  | ok place =>
    show (if (w.at? place).isSome then _ else _) = Except.map _ (if _ then _ else _)
    split
    · rfl
    · rfl

theorem kind?_untimed (p : String) : Untimed (Host.kind? p : StateM Workspace _) := by
  intro w t
  show (((w.withClock t).find p).toOption.map (·.kind), w.withClock t) = _
  rw [find_withClock]
  rfl

theorem print_untimed (bs : Bytes) : Untimed (Host.print bs : StateM Workspace _) := fun _ _ => rfl

theorem complain_untimed (bs : Bytes) : Untimed (Host.complain bs : StateM Workspace _) := fun _ _ => rfl

theorem requireDirectory_untimed (p : String) :
    Untimed (Host.requireDirectory p : StateM Workspace _) := by
  refine .bind (kind?_untimed p) fun kind => ?_
  match kind with
  | some .directory => exact .pure _
  | some .file => exact .pure _
  | none => exact makeDirectory_untimed p

theorem requireDirectories_untimed (ps : List String) :
    Untimed (Host.requireDirectories ps : StateM Workspace _) := by
  induction ps with
  | nil => exact .pure _
  | cons p ps ih =>
    refine .bind (requireDirectory_untimed p) fun made => ?_
    match made with
    | .error e => exact .pure _
    | .ok () => exact ih

theorem writeBelow_untimed (p : String) (data : Bytes) :
    Untimed (Host.writeBelow p data : StateM Workspace _) := by
  unfold Host.writeBelow
  dsimp only
  split
  · exact writeFile_untimed p data
  · refine .bind (requireDirectories_untimed _) fun made => ?_
    match made with
    | .error e => exact .pure _
    | .ok () => exact writeFile_untimed p data

end Workspace

namespace Assembly

/-- An assembly text begins with a dot. -/
theorem head_generate {text : String} (h : generate p = .ok text) :
    text.toList.head? = some '.' := by
  unfold generate at h
  obtain ⟨functions, _, h⟩ := bind_eq_ok.mp h
  obtain ⟨handlers, _, h⟩ := bind_eq_ok.mp h
  cases h
  have hFirst : (lines 0 preamble).toList.head? = some '.' := by
    rw [lines, String.toList_join]
    decide +kernel
  obtain ⟨rest, hRest⟩ := List.head?_eq_some_iff.mp hFirst
  rw [String.toList_append, hRest]
  rfl

end Assembly

namespace Program

theorem head_globalLine (g : GlobalData) : (globalLine g).toList.head? = some 'g' := by
  delta globalLine
  simp only [String.toList_append, List.append_assoc]
  rfl

theorem head_functionLines (f : FunctionCode) : (functionLines f).toList.head? = some 'f' := by
  delta functionLines
  simp only [String.toList_append, List.append_assoc]
  rfl

theorem head_stateLines (s : StateCode) : (stateLines s).toList.head? = some 's' := by
  delta stateLines
  simp only [String.toList_append, List.append_assoc]
  rfl

/-- Lines that all begin with a character, one after the other. -/
theorem head_join {α : Type} {line : α → String} {c : Char} (h : ∀ a, (line a).toList.head? = some c)
    (as : List α) : ∀ d ∈ (String.join (as.map line)).toList.head?, d = c := by
  intro d hd
  cases as with
  | nil => cases hd
  | cons a as =>
    obtain ⟨rest, hRest⟩ := List.head?_eq_some_iff.mp (h a)
    rw [String.toList_join, List.map_cons, List.flatMap_cons, hRest] at hd
    cases hd
    rfl

/-- The listing of a program does not begin with a dot. -/
theorem head_listing (p : Program) : p.listing.toList.head? ≠ some '.' := by
  intro h
  have hGlobals := head_join head_globalLine p.globals
  have hFunctions := head_join head_functionLines p.functions
  have hStates := head_join head_stateLines p.states
  simp only [listing, String.toList_append, List.head?_append, Option.or_eq_some_iff] at h
  rcases h with (h | ⟨_, h⟩) | ⟨_, h⟩
  · cases hGlobals _ h
  · cases hFunctions _ h
  · cases hStates _ h

end Program

theorem Backend.emit_assembly {out : Bytes} (h : Backend.assembly.emit p = .ok out) :
    ∃ text, Assembly.generate p = .ok text ∧ Text.bytes text = out := by
  unfold emit at h
  cases hText : Assembly.generate p with
  | error e => simp [hText, Except.map, Except.mapError] at h
  | ok text =>
    simp only [hText, Except.map, Except.mapError, Except.ok.injEq] at h
    exact ⟨text, rfl, h⟩

/-- The text of a program is not its listing. -/
theorem compile_text_ne_listing {c : Compiled} (h : compile script o = .ok c)
    (hText : c.backend = .assembly) :
    Text.bytes c.program.listing ≠ c.output := by
  obtain ⟨_, _, _, _, _, hOutput⟩ := compile_eq_ok h
  rw [← compile_backend h, hText] at hOutput
  obtain ⟨text, hGenerate, hBytes⟩ := Backend.emit_assembly hOutput
  rw [← hBytes, Ne, Text.bytes_inj]
  rintro rfl
  exact c.program.head_listing (Assembly.head_generate hGenerate)

theorem mapError_ok {ε ε' α : Type} (f : ε → ε') (a : α) : (Except.ok a).mapError f = .ok a := rfl

/-- What is under the key of a compile is its answer. -/
theorem Cache.compile_hit {c : Cache} {key : Bytes} (hKey : o.key script = .ok key)
    (hHeld : c.get? key = some e) (id : String) (now : Int) :
    c.compile id now script o = .ok { cache := c, hit := true, result := e.result } := by
  rw [Cache.compile, hKey, mapError_ok, ok_bind, hHeld]
  rfl

namespace Command

open Workspace (Looks Untimed tick)

/-- Steps do not look at the clock. -/
theorem perform_untimed (as : List Action) : Untimed (perform as : StateM Workspace _) := by
  induction as with
  | nil => exact .pure _
  | cons a as ih =>
    cases a with
    | write path data =>
      refine .bind (Workspace.writeBelow_untimed path data) fun done => ?_
      match done with
      | .error e => exact .pure _
      | .ok () => exact ih
    | report line => exact .bind (Workspace.print_untimed _) fun _ => ih
    | fail reason => exact .pure _

theorem loadCache_looks (path : String) : Looks (loadCache path : StateM Workspace _) := by
  refine .bind (fun _ => rfl) fun kind => ?_
  match kind with
  | none => exact .pure _
  | some _ =>
    refine .bind (fun _ => rfl) fun found => ?_
    match found with
    | .error e => exact .pure _
    | .ok bs => exact .pure _

theorem compileOptions_looks (s : Manifest) : Looks (s.compileOptions : StateM Workspace _) := by
  unfold Manifest.compileOptions
  split
  · exact .pure _
  · refine .bind (.bind (fun _ => rfl) fun found => ?_) fun _ => .pure _
    match found with
    | .error e => exact .pure _
    | .ok bs => exact .pure _

theorem makeJob_looks (f : Flags) (s : Manifest) (path : String) :
    Looks (makeJob f s path : StateM Workspace _) := by
  refine .bind (fun _ => rfl) fun found => ?_
  match found with
  | .error e => exact .pure _
  | .ok bs =>
    dsimp only
    split
    · exact .pure _
    · refine .bind (compileOptions_looks s) fun options => ?_
      match options with
      | .error e => exact .pure _
      | .ok o => exact .pure _

def finish (o : JobOutcome) : StateM Workspace (Option Bytes) := do
  complain (Diagnostic.log o.diagnostics)
  perform o.actions

theorem finish_untimed (o : JobOutcome) : Untimed (finish o) :=
  .bind (Workspace.complain_untimed _) fun _ => perform_untimed _

variable {f : Flags} {s : Manifest} {w : Workspace} {path cachePath : String} {j : Job} {cache : Cache}
  {r : Compiled} {key : Bytes} {id : String} {created : Int}

/-- Compiling an input is doing its job and finishing the outcome. -/
theorem compileInput_job {o : JobOutcome} {w' : Workspace}
    (hJob : (makeJob (m := StateM Workspace) f s path w).1 = .ok j)
    (hRun : runJob (m := StateM Workspace) j file w = (.ok o, w')) :
    compileInput (m := StateM Workspace) f s file path w = finish o w' := by
  have hMade : makeJob (m := StateM Workspace) f s path w = (.ok j, w) :=
    Prod.ext hJob (makeJob_looks f s path w)
  unfold compileInput
  rw [Workspace.bind_run hMade]
  exact Workspace.bind_run hRun

/-- A job that may not take a kept result, or has no cache to take it from, compiles its script. -/
theorem runJob_compiles (hCompile : compile (some j.script) j.options = .ok r)
    (hFile : file = none ∨ j.isCacheable = false) :
    runJob (m := StateM Workspace) j file w =
      (.ok ⟨r.diagnostics, none, j.actions r.result (r.symbols.toOption.getD "")⟩, w) := by
  have hFresh : j.runFresh = ⟨r.diagnostics, none, j.actions r.result (r.symbols.toOption.getD "")⟩ := by
    unfold Job.runFresh
    rw [hCompile]
  rw [← hFresh]
  rcases hFile with rfl | hCacheable
  · rfl
  · unfold runJob
    cases file with
    | none => rfl
    | some path =>
      simp only [hCacheable, Bool.false_eq_true, if_false]
      rfl

/-- A job whose result is held answers with it, and time passes. -/
theorem runJob_held (hLoad : (loadCache (m := StateM Workspace) cachePath w).1 = .ok cache)
    (hKey : j.options.key (some j.script) = .ok key) (hHeld : cache.get? key = some e)
    (hCacheable : j.isCacheable = true) :
    runJob (m := StateM Workspace) j (some cachePath) w =
      (.ok { diagnostics := e.diagnostics, actions := j.actions e.result "" },
        w.withClock (w.clock + tick)) := by
  have hLoaded : loadCache (m := StateM Workspace) cachePath w = (.ok cache, w) :=
    Prod.ext hLoad (loadCache_looks cachePath w)
  have hAnswer : j.runCached cache "" w.clock =
      { diagnostics := e.diagnostics, actions := j.actions e.result "" } := by
    unfold Job.runCached
    rw [Cache.compile_hit hKey hHeld]
    rfl
  unfold runJob
  simp only [hCacheable, if_true]
  rw [Workspace.bind_run hLoaded]
  dsimp only
  rw [@Workspace.bind_run _ _ (Host.newId : StateM Workspace String) _ w w "" rfl,
    @Workspace.bind_run _ _ (Host.now : StateM Workspace Int) _ w (w.withClock (w.clock + tick)) w.clock rfl,
    hAnswer]
  rfl

namespace Job

/-- A job that may take a kept result writes nothing that needs the program, apart from the listing. -/
theorem actions_cacheable (h : j.isCacheable = true) (r : CachedResult) (symbols : String) :
    j.actions r symbols = [.write (j.outputPath r) r.output, .report (j.summary r)] ++
      j.listingActions r ++ writeTo j.targets.source (Text.bytes j.script.source) := by
  simp only [isCacheable, Bool.and_eq_true, Bool.not_eq_true', decide_eq_true_eq] at h
  simp [actions, writeTo, assemblyActions, h.1, h.2]

/-- The listing of a result and of what is kept of it are the same, unless it is that of the program. -/
theorem listingActions_kept (h : j.targets.listing = "" ∨ r.backend ≠ .assembly) :
    j.listingActions (r.entry key id created).result = j.listingActions r.result := by
  unfold listingActions
  rcases h with hNone | hImage
  · rw [if_pos hNone, if_pos hNone]
  · have hName : r.backend.name = "lso" := by
      cases hBackend : r.backend with
      | image memory => rfl
      | assembly => exact absurd hBackend hImage
    have hListing : listingOf (r.entry key id created).result = listingOf r.result := by
      have hEntry : (r.entry key id created).result.backend = "lso" := hName
      have hResult : r.result.backend = "lso" := hName
      rw [listingOf, if_pos hEntry, listingOf, if_pos hResult]
      rfl
    rw [hListing]

/-- What is kept of a program's text takes the place of the listing. -/
theorem listingActions_text (hListing : j.targets.listing ≠ "") (hText : r.backend = .assembly) :
    j.listingActions r.result = [.write j.targets.listing (Text.bytes r.program.listing)] ∧
      j.listingActions (r.entry key id created).result = [.write j.targets.listing r.output] := by
  have hName : r.backend.name ≠ "lso" := by rw [hText]; decide
  have hResult : listingOf r.result = .ok (Text.bytes r.program.listing) := if_neg hName
  have hEntry : listingOf (r.entry key id created).result = .ok r.output := if_neg hName
  constructor
  · rw [listingActions, if_neg hListing, hResult]
  · rw [listingActions, if_neg hListing, hEntry]

end Job

/-- Whether a job lists a program whose text is kept in its place. -/
def Job.ListsKeptText (j : Job) (r : Compiled) : Prop :=
  j.isCacheable = true ∧ j.targets.listing ≠ "" ∧ r.backend = .assembly

/-- The command without a cache, and with one that holds what an earlier compile of the same script with
the same options has made. Both say the same and leave the same files and streams behind, unless the listing
of a program is asked for beside its assembly text. Then they take the same steps but one: what is written
as the listing is the text, which is never the listing of the program. -/
theorem compileInput_kept (hJob : (makeJob (m := StateM Workspace) f s path w).1 = .ok j)
    (hLoad : (loadCache (m := StateM Workspace) cachePath w).1 = .ok cache)
    (hCompile : compile (some j.script) j.options = .ok r)
    (hKey : j.options.key (some j.script) = .ok key)
    (hHeld : cache.get? key = some (r.entry key id created)) :
    let fresh := compileInput (m := StateM Workspace) f s none path w
    let kept := compileInput (m := StateM Workspace) f s (some cachePath) path w
    (¬ j.ListsKeptText r → kept = (fresh.1, fresh.2.withClock kept.2.clock)) ∧
    (j.ListsKeptText r → ∃ before after, Text.bytes r.program.listing ≠ r.output ∧
      fresh = finish ⟨r.diagnostics, none,
        before ++ .write j.targets.listing (Text.bytes r.program.listing) :: after⟩ w ∧
      (kept.1, kept.2.withClock w.clock) = finish ⟨r.diagnostics, none,
        before ++ .write j.targets.listing r.output :: after⟩ w) := by
  intro fresh kept
  have hFresh : fresh = finish ⟨r.diagnostics, none, j.actions r.result (r.symbols.toOption.getD "")⟩ w :=
    compileInput_job hJob (runJob_compiles hCompile (.inl rfl))
  cases hCacheable : j.isCacheable with
  | false =>
    have hKept : kept = fresh :=
      (compileInput_job hJob (runJob_compiles hCompile (.inr hCacheable))).trans hFresh.symm
    refine ⟨fun _ => by rw [hKept]; rfl, fun hLists => ?_⟩
    rw [Job.ListsKeptText, hCacheable] at hLists
    cases hLists.1
  | true =>
    have hKept := compileInput_job hJob (runJob_held hLoad hKey hHeld hCacheable)
    rw [finish_untimed, Job.actions_cacheable hCacheable] at hKept
    rw [Job.actions_cacheable hCacheable] at hFresh
    refine ⟨fun hOther => ?_, fun hLists => ?_⟩
    · have hListing : j.targets.listing = "" ∨ r.backend ≠ .assembly := by
        by_contra hBoth
        push Not at hBoth
        exact hOther ⟨hCacheable, hBoth⟩
      rw [Job.listingActions_kept hListing] at hKept
      show compileInput (m := StateM Workspace) f s (some cachePath) path w = _
      have hSame : kept = (fresh.1, fresh.2.withClock (w.clock + tick)) := by
        rw [hFresh]
        exact hKept
      rw [hSame]
      exact hSame
    · obtain ⟨_, hListing, hText⟩ := hLists
      obtain ⟨hResult, hEntry⟩ := @Job.listingActions_text j r key id created hListing hText
      rw [hResult] at hFresh
      rw [hEntry] at hKept
      let before : List Action :=
        [.write (j.outputPath r.result) r.output, .report (j.summary r.result)]
      let after := Job.writeTo j.targets.source (Text.bytes j.script.source)
      refine ⟨before, after, compile_text_ne_listing hCompile hText, hFresh, ?_⟩
      let o : JobOutcome := ⟨r.diagnostics, none, before ++ .write j.targets.listing r.output :: after⟩
      have hSame : kept = ((finish o w).1, (finish o w).2.withClock (w.clock + tick)) := hKept
      exact (finish_untimed o).settle hSame

deriving instance DecidableEq for CacheEntry

def idleScript : Script :=
  { pos := {}
    globals := []
    states := [some
      { pos := {}
        name := "default"
        events := [some
          { pos := {}, name := "state_entry", params := [], body := some { pos := {}, stmts := [] } }] }] }

def smallSettings : Manifest := { dir := "/", memory := 160, library := "library" }

/-- The script, its library, and a cache that holds its image. -/
def heldWorkspace : Workspace :=
  let o := smallSettings.optionsWith (some {})
  let held : List CacheEntry :=
    match compile (some idleScript) o, o.key (some idleScript) with
    | .ok r, .ok key => [r.entry key "" 0]
    | _, _ => []
  { entries := [(["script"], .file idleScript.encode), (["library"], .file []),
      (["cache"], .file (Cache.encode ⟨held⟩))] }

def holdsResult (f : Flags) (s : Manifest) (path cachePath : String) (w : Workspace) : Bool :=
  match (makeJob (m := StateM Workspace) f s path w).1, (loadCache (m := StateM Workspace) cachePath w).1 with
  | .ok j, .ok cache =>
    match compile (some j.script) j.options, j.options.key (some j.script) with
    | .ok r, .ok key => decide (cache.get? key = some (r.entry key "" 0)) && r.backend != .assembly
    | _, _ => false
  | _, _ => false

/-- A listing of an image is the same from a cache. -/
theorem compileInput_kept_listing : ∃ j cache r key,
    (makeJob (m := StateM Workspace) { listing := "listing" } smallSettings "script" heldWorkspace).1 = .ok
      j ∧
    (loadCache (m := StateM Workspace) "cache" heldWorkspace).1 = .ok cache ∧
    compile (some j.script) j.options = .ok r ∧ j.options.key (some j.script) = .ok key ∧
    cache.get? key = some (r.entry key "" 0) ∧
    let compileWith (file : Option String) :=
      compileInput (m := StateM Workspace) { listing := "listing" } smallSettings file "script" heldWorkspace
    compileWith (some "cache") =
      ((compileWith none).1, (compileWith none).2.withClock (compileWith (some "cache")).2.clock) := by
  have hHolds : holdsResult { listing := "listing" } smallSettings "script" "cache" heldWorkspace = true := by
    decide +kernel
  unfold holdsResult at hHolds
  split at hHolds
  next j cache hJob hLoad =>
    split at hHolds
    next r key hCompile hKey =>
      obtain ⟨hHeld, hImage⟩ := Bool.and_eq_true_iff.mp hHolds
      have hHeld := of_decide_eq_true hHeld
      refine ⟨j, cache, r, key, hJob, hLoad, hCompile, hKey, hHeld, ?_⟩
      apply (compileInput_kept hJob hLoad hCompile hKey hHeld).1
      exact fun hLists => bne_iff_ne.mp hImage hLists.2.2
    next => cases hHolds
  next => cases hHolds

/-- A job that asks for an assembly text and for a listing of the program beside it. -/
def listedJob : Job :=
  { path := "script"
    script := idleScript
    options := { library := some {}, backend := some .assembly }
    targets := { output := "text", listing := "listing", source := "", assembly := "", symbols := "" } }

/-- The listing beside an assembly text changes with what the cache holds: it is that of the program as long
as nothing is held, and the text once the result is held. -/
theorem runCached_lists_text : ∃ r key,
    compile (some listedJob.script) listedJob.options = .ok r ∧
    listedJob.options.key (some listedJob.script) = .ok key ∧
    .write "listing" (Text.bytes r.program.listing) ∈ listedJob.runFresh.actions ∧
    .write "listing" (Text.bytes r.program.listing) ∉
      (listedJob.runCached ⟨[r.entry key "" 0]⟩ "" 1).actions ∧
    .write "listing" r.output ∈ (listedJob.runCached ⟨[r.entry key "" 0]⟩ "" 1).actions := by
  have hOk : (compile (some listedJob.script) listedJob.options).isOk = true := by decide +kernel
  obtain ⟨r, hCompile⟩ : ∃ r, compile (some listedJob.script) listedJob.options = .ok r := by
    cases h : compile (some listedJob.script) listedJob.options with
    | error e => rw [h] at hOk; cases hOk
    | ok r => exact ⟨r, rfl⟩
  obtain ⟨key, hKey⟩ : ∃ key, listedJob.options.key (some listedJob.script) = .ok key := ⟨_, rfl⟩
  have hBackend : r.backend = .assembly := compile_backend hCompile
  have hDiffers := compile_text_ne_listing hCompile hBackend
  have hHeld : (⟨[r.entry key "" 0]⟩ : Cache).get? key = some (r.entry key "" 0) := by
    simp [Cache.get?, Compiled.entry]
  obtain ⟨hListing, hText⟩ := @Job.listingActions_text listedJob r key "" 0 (by decide) hBackend
  have hFresh : listedJob.runFresh.actions = listedJob.actions r.result (r.symbols.toOption.getD "") := by
    unfold Job.runFresh
    rw [hCompile]
  have hCached : (listedJob.runCached ⟨[r.entry key "" 0]⟩ "" 1).actions =
      listedJob.actions (r.entry key "" 0).result "" := by
    unfold Job.runCached
    rw [Cache.compile_hit hKey hHeld]
  rw [Job.actions_cacheable (by decide), hListing] at hFresh
  rw [Job.actions_cacheable (by decide), hText] at hCached
  refine ⟨r, key, hCompile, hKey, ?_, ?_, ?_⟩
  · rw [hFresh]
    simp [listedJob]
  · rw [hCached]
    simp [listedJob, Job.writeTo, Job.outputPath, hDiffers]
  · rw [hCached]
    simp [listedJob]

end Command
end Lsl
