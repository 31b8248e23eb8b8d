import Lsl.Proofs.GlobalPlaces
import Lsl.Proofs.ImageRoundTrip
import Lsl.Proofs.Outlines
import Lsl.Proofs.ReaderSafety

/-! Images of compiled scripts. The reader accepts the image of a script, whatever types it declares, if
and only if its global variables have types of values: a variable without an initial value may be declared
with any type, and one that takes no room is rejected by the reader. -/
namespace Lsl

open List

variable {done : Bytes} {heap' : Heap} {before after ds : List GlobalData} {vs : List GlobalVar}
  {p : Program} {memory : Int} {c : Compiled} {script : Script} {o : CompileOptions}

variable {bytes out : Bytes} {heap : Heap} {g : GlobalData} {e : Surroundings}

/-- A program whose functions and states an image can tell apart: names end at their NUL, and events
have bits of their own. -/
structure Program.Legible (p : Program) : Prop where
  functionNames : ∀ f ∈ p.functions, 0 ∉ Text.bytes f.name
  stateNames : ∀ s ∈ p.states, 0 ∉ Text.bytes s.name
  events : ∀ s ∈ p.states, ∀ h ∈ s.events, h.kind.code < 64
  ascending : ∀ s ∈ p.states, (s.events.map (·.kind.code)).Pairwise (· < ·)

def GlobalData.header (g : GlobalData) : Bytes :=
  intWord (Image.globalHeaderSize g.name) ++ UInt8.ofNat g.ty.tag :: Image.nameBytes g.name

namespace Image

/-- The registers of an image that was made of a program are accepted. -/
theorem readHead_eq {s : Sections} (hUsed : (s.used : Int) ≤ memory) (hRange : memory < 2 ^ 31)
    (hBytes : bytes = (initialRegisters p s memory).encode ++ s.bytes ++ List.replicate
      (memory.toNat - s.used) 0) :
    readHead bytes = .ok (initialRegisters p s memory) := by
  have hLength : bytes.length = memory.toNat := by rw [hBytes, length_image _ (by omega)]
  obtain ⟨hUsedEq, hHr, hSr, hGfr⟩ := s.used_eq
  obtain ⟨hGvr, hGfr', hSr', hHr', hHp⟩ := @initialRegisters_toInt p s memory (by omega)
  have hRegisters := readRegisters_eq (@Sections.holds bytes.toArray s _ _ hBytes).1
  have hVersion : (initialRegisters p s memory).vn = Registers.version := rfl
  have hOrdered : sectionsOrdered (initialRegisters p s memory) bytes.length = true := by
    simp [sectionsOrdered, hGvr, hGfr', hSr', hHr', hHp]
    omega
  rw [readHead, size_toArray, if_neg (by omega), hRegisters, ok_bind,
    if_neg (not_not_intro hVersion), hOrdered]
  rfl

/-- What is left to read of the image of a legible program: its globals and its heap. -/
theorem read_assembled (hLegible : p.Legible) (hPositive : 0 < memory) (hRange : memory < 2 ^ 31)
    (h : assemble p memory = .ok bytes) :
    ∃ s heap functions states, writeGlobals p.globals = .ok (s.globals, heap) ∧ s.heap = heap.encode ∧
      bytes.toArray.size < 2 ^ 31 ∧ Holds bytes.toArray Registers.size s.globals ∧
      Holds bytes.toArray s.hr s.heap ∧ Forall₂ FunctionEntry.Carries functions p.functions ∧
      Forall₂ StateEntry.Carries states p.states ∧
      read bytes = do
        let globals ← readGlobals bytes.toArray Registers.size s.gfr (s.gfr + 1) Registers.size
        let heap ← readHeap bytes.toArray s.hr s.used (s.used + 1) s.hr
        return ⟨initialRegisters p s memory, globals, functions, states, heap⟩ := by
  obtain ⟨s, hSections, hUsed, hBytes⟩ := assemble_eq_ok hPositive h
  obtain ⟨heap, hGlobals, hFunctions, hStates, hHeap⟩ := writeSections_eq_ok hSections
  have hLength : bytes.length = memory.toNat := by rw [hBytes, length_image _ (by omega)]
  have hSize : bytes.toArray.size < 2 ^ 31 := by rw [size_toArray]; omega
  obtain ⟨hHead, hGlobalsAt, hFunctionsAt, hStatesAt, hHeapAt⟩ :=
    @Sections.holds bytes.toArray s _ _ hBytes
  obtain ⟨functions, hReadFunctions, hShowFunctions⟩ := readFunctions_carries hFunctions
    hLegible.functionNames hSize hFunctionsAt rfl
  obtain ⟨states, hReadStates, hShowStates⟩ := readStates_carries hStates hLegible.stateNames
    hLegible.events hLegible.ascending hSize hStatesAt rfl
  refine ⟨s, heap, functions, states, hGlobals, hHeap, hSize, hGlobalsAt, hHeapAt, hShowFunctions,
    hShowStates, ?_⟩
  obtain ⟨hGvr, hGfr, hSr, hHr, hHp⟩ := @initialRegisters_toInt p s memory (by omega)
  have hFunctionsEnd : ((s.sr : Nat) : Int) = s.gfr + s.functions.length := by
    rw [Sections.sr]
    push_cast
    rfl
  have hStatesEnd : ((s.hr : Nat) : Int) = s.sr + s.states.length := by
    rw [Sections.hr]
    push_cast
    rfl
  rw [read_eq_bind, readHead_eq hUsed hRange hBytes, ok_bind]
  simp only [hGvr, hGfr, hSr, hHr, hHp, Int.toNat_natCast, hFunctionsEnd, hReadFunctions, ok_bind]
  simp only [← hFunctionsEnd, hStatesEnd, hReadStates, ok_bind]

/-- The image of a legible program whose globals have values of their types is read. -/
theorem read_legible (hLegible : p.Legible) (hgs : ∀ g ∈ p.globals, g.Typed)
    (hNames : ∀ g ∈ p.globals, 0 ∉ Text.bytes g.name) (hPositive : 0 < memory)
      (hRange : memory < 2 ^ 31)
    (h : assemble p memory = .ok bytes) :
    ∃ img, read bytes = .ok img ∧ Forall₂ FunctionEntry.Carries img.functions p.functions ∧
      Forall₂ StateEntry.Carries img.states p.states := by
  obtain ⟨s, heap, functions, states, hGlobals, hHeap, hSize, hGlobalsAt, hHeapAt, hFunctions, hStates,
    hRead⟩ := read_assembled hLegible hPositive hRange h
  obtain ⟨hUsedEq, hHrEq, hSrEq, hGfrEq⟩ := s.used_eq
  obtain ⟨hReadGlobals, hReadHeap⟩ :=
    readValues_eq hgs hNames hGlobals hSize hGlobalsAt (hHeap ▸ hHeapAt)
    hGfrEq (hHeap ▸ hUsedEq) (by omega)
  rw [hReadGlobals, hReadHeap] at hRead
  exact ⟨_, hRead, hFunctions, hStates⟩

/-- A global is written behind its header, at the place that it was given. -/
theorem addGlobal_header (h : addGlobal done heap g = .ok (out, heap')) :
    ∃ content, out = done ++ (g.header ++ content) := by
  simp only [addGlobal] at h
  split at h
  · cases h
  · split at h
    · split at h
      · cases h
      · next stored handle _ =>
        cases h
        exact ⟨int32 handle, by simp [GlobalData.header]⟩
    · cases h
      exact ⟨(initialValue g.ty g.value).inline, by simp [GlobalData.header]⟩

theorem foldlM_addGlobal_extends {gs : List GlobalData}
    (h : gs.foldlM (fun (s : Bytes × Heap) g => addGlobal s.1 s.2 g) (done, heap) = .ok (out, heap')) :
    ∃ rest, out = done ++ rest := by
  induction gs generalizing done heap with
  | nil =>
    cases h
    exact ⟨[], by simp⟩
  | cons g gs ih =>
    rw [foldlM_cons, bind_eq_ok] at h
    obtain ⟨⟨next, heap₁⟩, hFirst, hRest⟩ := h
    obtain ⟨content, rfl⟩ := addGlobal_header hFirst
    obtain ⟨rest, rfl⟩ := ih hRest
    exact ⟨_, append_assoc ..⟩

/-- The globals before one of any type are written as records, and its header stands behind them. -/
theorem writeGlobals_split (hBefore : ∀ g ∈ before, g.Typed)
    (h : writeGlobals (before ++ g :: after) = .ok (out, heap)) :
    GlobalData.Placed 0 before ∧ ∃ rest, out = GlobalData.records 0 before ++ (g.header ++ rest) := by
  rw [writeGlobals, foldlM_append, bind_eq_ok] at h
  obtain ⟨⟨done, heap₁⟩, hFirst, h⟩ := h
  obtain ⟨hPlaced, hDone, _⟩ := foldlM_addGlobal hBefore hFirst
  rw [foldlM_cons, bind_eq_ok] at h
  obtain ⟨⟨next, heap₂⟩, hNext, hRest⟩ := h
  obtain ⟨content, rfl⟩ := addGlobal_header hNext
  obtain ⟨rest, rfl⟩ := foldlM_addGlobal_extends hRest
  exact ⟨hPlaced, content ++ rest, by simp [hDone]⟩

variable {data : Array UInt8} {start stop : Int}

theorem globalAt_untyped {g : GlobalData} {pos : Int} (hType : g.ty.size = 0)
    (hName : 0 ∉ Text.bytes g.name) (hHolds : Holds data pos g.header) (hStop : pos + 4 < stop)
    (hSize : data.size < 2 ^ 31) :
    globalAt data start stop pos = malformed (.globalType (Text.bytes g.name) g.ty) := by
  have hBounds := hHolds.bounds
  have hLength : g.header.length = globalHeaderSize g.name := by
    simp only [GlobalData.header, nameBytes, globalHeaderSize, length_append, length_cons,
      length_nil, length_intWord, Text.length_bytes]
    omega
  have hWord : wordAt data pos = .ok _ := hHolds.left.number (by omega)
  have hTag : byteAt data (pos + 4) = .ok _ := hHolds.right.head.byte
  have hString : stringAt data (pos + 5) = .ok (Text.bytes g.name, _) :=
    (hHolds.right.tail.shift (by rw [length_intWord]; omega)).string hName
  simp only [globalAt, hWord, hTag, hString, ok_bind, Ty.ofTag_ofNat]
  rw [if_neg (by omega), if_pos hType]
  rfl

/-- The first global whose type takes no room makes the reader reject the image. -/
theorem read_untyped (hLegible : p.Legible) (hGlobals : p.globals = before ++ g :: after)
    (hBefore : ∀ g ∈ before, g.Typed) (hType : g.ty.size = 0)
    (hNames : ∀ g ∈ p.globals, 0 ∉ Text.bytes g.name) (hPositive : 0 < memory)
      (hRange : memory < 2 ^ 31)
    (h : assemble p memory = .ok bytes) :
    read bytes = .error (.malformed (.globalType (Text.bytes g.name) g.ty)) := by
  obtain ⟨s, heap, functions, states, hWrite, _, hSize, hHolds, _, _, _, hRead⟩ :=
    read_assembled hLegible hPositive hRange h
  obtain ⟨-, -, -, hGfrEq⟩ := s.used_eq
  rw [hGlobals] at hWrite hNames
  obtain ⟨hPlaced, rest, hOut⟩ := writeGlobals_split hBefore hWrite
  have hCount := GlobalData.length_le_records before 0
  have hHeader : 5 ≤ g.header.length := by
    simp only [GlobalData.header, length_append, length_cons, length_intWord]
    omega
  rw [hOut] at hHolds
  have hLength := congrArg List.length hOut
  simp only [length_append] at hLength
  obtain ⟨fuel, hFuel⟩ : ∃ fuel, s.gfr + 1 = before.length + (fuel + 1) :=
    ⟨s.gfr - before.length, by omega⟩
  -- The reader walks over the records before the global and is stopped by its header.
  have hWalk := @readGlobals_records bytes.toArray Registers.size s.gfr before 0 0 Registers.size (fuel + 1)
    hBefore (fun g' hg' => hNames g' (by simp [hg'])) hSize hPlaced (by simp) hHolds.left (by omega)
  have hGlobal := @globalAt_untyped bytes.toArray Registers.size s.gfr g
    (Registers.size + (GlobalData.records 0 before).length) hType (hNames g (by simp)) hHolds.right.left
    (by omega) hSize
  have hNext : readGlobals bytes.toArray Registers.size s.gfr (fuel + 1)
      (Registers.size + (GlobalData.records 0 before).length) =
      malformed (.globalType (Text.bytes g.name) g.ty) := by
    rw [readGlobals, if_neg (by omega), hGlobal]
    rfl
  rw [hRead, hFuel, hWalk, hNext]
  rfl

end Image

/-- The names of a script's variables, functions and states hold no NUL. -/
structure Script.NamesEnd (s : Script) : Prop where
  globals : ∀ v ∈ s.globalVars, 0 ∉ Text.bytes v.name
  functions : ∀ f ∈ s.functions, 0 ∉ Text.bytes f.name
  states : ∀ st, some st ∈ s.states → 0 ∉ Text.bytes st.name

theorem Ty.size_eq_zero {t : Ty} : t.size = 0 ↔ t.isValue = false := by
  cases t <;> simp [size, isValue, isKnown]

namespace Script

theorem NamesEnd.of_outline {s t : Script} (h : s.NamesEnd) (hSame : t.outline = s.outline) :
    t.NamesEnd := by
  obtain ⟨hVariables, hFunctions, hStates⟩ := outline_parts hSame
  refine ⟨fun v hv => ?_, fun f hf => ?_, fun st hst => ?_⟩
  · obtain ⟨w, hw, hEq⟩ := exists_of_map_eq hVariables hv
    rw [← (Prod.mk.inj hEq).1]
    exact h.globals w hw
  · obtain ⟨g, hg, hEq⟩ := exists_of_map_eq hFunctions hf
    rw [← hEq]
    exact h.functions g hg
  · obtain ⟨o, ho, hEq⟩ := exists_of_map_eq hStates hst
    obtain ⟨st', rfl, hName⟩ := Option.map_eq_some_iff.mp hEq
    have hSameName : st.name = st'.name := hName.symm
    rw [hSameName]
    exact h.states st' ho

/-- The handlers of an emitted state stand in the order of their events, of which none is handled
twice. -/
theorem emitState_ascending {st : State} {c : StateCode} {l l' : Labels} (hOrderly : st.Orderly)
    (h : emitState e (some st) l = .ok (c, l')) :
    (∀ k ∈ c.events, k.kind.code < 64) ∧ (c.events.map (·.kind.code)).Pairwise (· < ·) := by
  obtain ⟨t, _, events, hSome, _, hEvents, rfl⟩ := emitState_eq.mp h
  cases hSome
  have hHandlers := emits_mapM_forall₂ hEvents
  have hKinds : events.map (fun k => some k.kind) = st.kinds := by
    refine map_eq_of_forall₂ hHandlers ?_
    rintro o k ⟨l, l', hk⟩
    obtain ⟨g, body, rfl, _, rfl⟩ := emitHandler_eq.mp hk
    rfl
  have hPerm := events.mergeSort_perm fun a b => decide (a.kind.code ≤ b.kind.code)
  have hSorted := @List.pairwise_mergeSort _ (fun a b : HandlerCode => decide (a.kind.code ≤ b.kind.code))
    (fun _ _ _ hab hbc => by simpa using UInt8.le_trans (by simpa using hab) (by simpa using hbc))
    (fun a b => by simpa using UInt8.le_total a.kind.code b.kind.code) events
  have hDistinct : (events.map (·.kind)).Nodup := by
    refine List.Nodup.of_map some ?_
    rw [map_map]
    exact hKinds ▸ hOrderly.distinct
  constructor
  · intro k hk
    obtain ⟨_, hg, _, _, hk⟩ := exists_of_mem_right hHandlers (hPerm.mem_iff.mp hk)
    obtain ⟨g, _, rfl, _, rfl⟩ := emitHandler_eq.mp hk
    exact (EventKind.name_of_ofName? (hOrderly.known g.name g.kind (List.mem_map.mpr ⟨_, hg, rfl⟩))).2.2
  · -- Sorting leaves room for equal codes, which distinct events do not have.
    have hApart := List.pairwise_map.mp ((hPerm.map (·.kind)).nodup_iff.mpr hDistinct)
    rw [pairwise_map]
    refine (hSorted.and hApart).imp fun ⟨hOrder, hKind⟩ => ?_
    exact UInt8.lt_of_le_of_ne (by simpa using hOrder) fun hCode => hKind (congrArg EventKind.mk hCode)

theorem emitGlobals_outline (h : emitGlobals e vs = .ok ds) :
    ds.map (fun d => (d.name, d.ty)) = vs.map fun v => (v.name, v.ty) := by
  induction vs generalizing ds with
  | nil =>
    cases h
    rfl
  | cons v vs ih =>
    simp only [emitGlobals, bind_eq_ok, pure_eq_ok] at h
    obtain ⟨s, _, rest, hRest, rfl⟩ := h
    rw [map_cons, map_cons, ih hRest]

/-- The initial values of numbered variables have their types, if the recorded ones do. -/
theorem emitGlobals_types {round i : Nat} (hNumbered : GlobalVar.NumberedFrom round i vs)
    (hKnown : ∀ j v c, vs[j]? = some v → e.constants.lookup (round, i + j) = some c → c.value.ty = v.ty)
    (h : emitGlobals e vs = .ok ds) : ∀ d ∈ ds, d.value.ty = d.ty := by
  induction vs generalizing i ds with
  | nil =>
    cases h
    simp
  | cons v vs ih =>
    simp only [emitGlobals, bind_eq_ok, need_eq_ok, pure_eq_ok] at h
    obtain ⟨s, hEntry, rest, hRest, rfl⟩ := h
    obtain ⟨⟨k, hk, hKind, hIndex, hRound⟩, hNumbered⟩ := hNumbered
    cases hEntry.symm.trans hk
    have hLater := ih hNumbered (fun j w c hj hc =>
      hKnown (j + 1) w c hj (by rwa [Nat.add_assoc, Nat.add_comm 1 j] at hc)) hRest
    simp only [mem_cons, forall_eq_or_imp]
    refine ⟨?_, hLater⟩
    rw [Constants.value?, Constants.constant?, if_pos hKind, hIndex, hRound]
    cases hc : e.constants.lookup (round, i) with
    | none => exact Value.zero_ty _
    | some c => exact hKnown 0 v c rfl hc

end Script

namespace Session

variable {library : Library} {privileged : Bool} {s s' : Session}

/-- The program of an orderly script whose names hold no NUL is legible. -/
theorem emit_legible (hNames : s.script.NamesEnd)
    (hOrderly : ∀ st, some st ∈ s.script.states → st.Orderly) (h : s.emit = .ok (s', some p)) :
    p.Legible ∧ ∀ g ∈ p.globals, 0 ∉ Text.bytes g.name := by
  obtain ⟨_, l, hEmit, _⟩ := emit_eq_ok h
  obtain ⟨globals, functions, states, l₁, hGlobals, hFunctions, hStates, rfl⟩ := Script.emit_eq.mp hEmit
  have hBodies := emits_mapM_forall₂ hFunctions
  have hCodes := emits_mapM_forall₂ hStates
  have hState : ∀ c ∈ states, ∃ st l l', some st ∈ s.script.states ∧
      Script.emitState (s.script.surroundings s.placed s.constants) (some st) l = .ok (c, l') := by
    intro c hc
    obtain ⟨o, ho, l, l', hEmitted⟩ := exists_of_mem_right hCodes hc
    obtain ⟨st, _, _, rfl, _⟩ := Script.emitState_eq.mp hEmitted
    exact ⟨st, l, l', ho, hEmitted⟩
  refine ⟨⟨fun f hf => ?_, fun c hc => ?_, fun c hc => ?_, fun c hc => ?_⟩, fun g hg => ?_⟩
  · obtain ⟨f₀, hf₀, l, l', hEmitted⟩ := exists_of_mem_right hBodies hf
    obtain ⟨_, _, _, _, rfl⟩ := Script.emitFunction_eq.mp hEmitted
    exact hNames.functions f₀ hf₀
  · obtain ⟨st, l, l', hst, hEmitted⟩ := hState c hc
    obtain ⟨t, _, _, hSome, _, _, rfl⟩ := Script.emitState_eq.mp hEmitted
    cases hSome
    exact hNames.states st hst
  · obtain ⟨st, l, l', hst, hEmitted⟩ := hState c hc
    exact (Script.emitState_ascending (hOrderly st hst) hEmitted).1
  · obtain ⟨st, l, l', hst, hEmitted⟩ := hState c hc
    exact (Script.emitState_ascending (hOrderly st hst) hEmitted).2
  · obtain ⟨v, hv, hEq⟩ := exists_of_map_eq (Script.emitGlobals_outline hGlobals) hg
    rw [← (Prod.mk.inj hEq).1]
    exact hNames.globals v hv

end Session

/-- A compiled script has passed the analyses, and its program has the output that was asked for. -/
theorem compile_eq_ok {script : Option Script} (h : compile script o = .ok c) :
    ∃ t s, script = some t ∧
      (Session.start t o.theLibrary o.privileged).analyze = .ok s ∧
      s.emit = .ok (c.session, some c.program) ∧ o.theBackend.emit c.program = .ok c.output := by
  unfold compile at h
  split at h
  · cases h
  · next t =>
    split at h
    · cases h
    · cases h
    · next s' p hRun =>
      obtain ⟨s, hAnalyze, hEmit⟩ := bind_eq_ok.mp hRun
      refine ⟨t, s, rfl, hAnalyze, ?_⟩
      unfold Session.finish at h
      split at h
      · next output hOutput =>
        cases h
        exact ⟨hEmit, hOutput⟩
      · split at h
        · cases h
        · cases h

theorem compile_backend {script : Option Script} (h : compile script o = .ok c) :
    c.backend = o.theBackend := by
  unfold compile at h
  split at h
  · cases h
  · split at h
    · cases h
    · cases h
    · unfold Session.finish at h
      split at h
      · cases h
        rfl
      · split at h
        · cases h
        · cases h

theorem Backend.emit_image (h : (Backend.image memory).emit p = .ok out) :
    Image.assemble p memory = .ok out := by
  unfold emit at h
  cases hAssemble : Image.assemble p memory with
  | error e => simp [hAssemble, Except.mapError] at h
  | ok bytes => simpa [hAssemble, Except.mapError] using h

namespace Image

theorem budget_range (h : memory < 2 ^ 31) :
    0 < budget memory ∧ budget memory < 2 ^ 31 := by
  unfold budget defaultMemory
  split <;> omega

theorem assemble_budget (p : Program) (h : memory < 2 ^ 31) :
    assemble p (budget memory) = assemble p memory := by
  have hPositive := (budget_range h).1
  have hBudget : budget (budget memory) = budget memory := if_neg (by omega)
  simp only [assemble, hBudget]

end Image

/-- What the image of a compiled script is made of: a legible program, whose globals are those of the
script, with values of their types. -/
structure Compiled.Stores (c : Compiled) (script : Script) (memory : Int) : Prop where
  legible : c.program.Legible
  names : ∀ g ∈ c.program.globals, 0 ∉ Text.bytes g.name
  globals : c.program.globals.map (fun g => (g.name, g.ty)) = script.globalVars.map fun v => (v.name, v.ty)
  types : ∀ g ∈ c.program.globals, g.value.ty = g.ty
  output : Image.assemble c.program (Image.budget memory) = .ok c.output

theorem compile_stores (h : compile (some script) o = .ok c) (hBackend : o.theBackend = .image memory)
    (hMemory : memory < 2 ^ 31) (hNames : script.NamesEnd) :
    c.Stores script memory := by
  obtain ⟨_, s, hSome, hAnalyze, hEmit, hOutput⟩ := compile_eq_ok h
  cases hSome
  obtain ⟨hFailed, l, hScript, _⟩ := Session.emit_eq_ok hEmit
  obtain ⟨hOutline, hOrderly, _⟩ := Session.analyze_outline hAnalyze hFailed
  obtain ⟨hNumbered, hKnown⟩ := Session.analyze_constants hAnalyze hFailed
  obtain ⟨hLegible, hGlobalNames⟩ := Session.emit_legible (hNames.of_outline hOutline) hOrderly hEmit
  obtain ⟨globals, functions, states, l₁, hGlobals, _, _, hProgram⟩ := Script.emit_eq.mp hScript
  have hSame : c.program.globals = globals := by rw [hProgram]
  refine ⟨hLegible, hGlobalNames, ?_, ?_, ?_⟩
  · rw [hSame, Script.emitGlobals_outline hGlobals, (Script.outline_parts hOutline).1]
  · rw [hSame]
    refine Script.emitGlobals_types hNumbered (fun j v k hj hk => ?_) hGlobals
    rw [Nat.zero_add] at hk
    exact hKnown j v k hj hk
  · rw [hBackend] at hOutput
    rw [Image.assemble_budget _ hMemory]
    exact Backend.emit_image hOutput

namespace Compiled.Stores

theorem typed (h : c.Stores script memory) (hValues : ∀ v ∈ script.globalVars, v.ty.isValue = true) :
    ∀ g ∈ c.program.globals, g.Typed := by
  intro g hg
  obtain ⟨v, hv, hEq⟩ := exists_of_map_eq h.globals hg
  have hTy : v.ty = g.ty := (Prod.mk.inj hEq).2
  exact ⟨hTy ▸ hValues v hv, h.types g hg⟩

/-- The image of a script whose variables have types of values is read. -/
theorem read_ok (h : c.Stores script memory) (hMemory : memory < 2 ^ 31)
    (hValues : ∀ v ∈ script.globalVars, v.ty.isValue = true) :
    ∃ img, Image.read c.output = .ok img ∧
      Forall₂ FunctionEntry.Carries img.functions c.program.functions ∧
      Forall₂ StateEntry.Carries img.states c.program.states := by
  obtain ⟨hPositive, hRange⟩ := Image.budget_range hMemory
  exact Image.read_legible h.legible (h.typed hValues) h.names hPositive hRange h.output

/-- The first variable of another type makes the reader reject the image. -/
theorem read_rejects (h : c.Stores script memory) (hMemory : memory < 2 ^ 31) {v : GlobalVar}
    (hFirst : script.globalVars.find? (fun v => !v.ty.isValue) = some v) :
    Image.read c.output = .error (.malformed (.globalType (Text.bytes v.name) v.ty)) := by
  obtain ⟨hPositive, hRange⟩ := Image.budget_range hMemory
  obtain ⟨hValue, before, after, hSplit, hBefore⟩ := List.find?_eq_some_iff_append.mp hFirst
  have hGlobals := h.globals
  rw [hSplit, map_append, map_cons] at hGlobals
  obtain ⟨before', rest, hProgram, hSame, hRest⟩ := List.map_eq_append_iff.mp hGlobals
  obtain ⟨g, after', rfl, hHead, _⟩ := List.map_eq_cons_iff.mp hRest
  obtain ⟨hName, hTy⟩ := Prod.mk.inj hHead
  have hTyped : ∀ g ∈ before', g.Typed := by
    intro g' hg'
    obtain ⟨w, hw, hEq⟩ := exists_of_map_eq hSame hg'
    have hw' : w.ty = g'.ty := (Prod.mk.inj hEq).2
    exact ⟨hw' ▸ by simpa using hBefore w hw, h.types g' (by simp [hProgram, hg'])⟩
  have hSize : g.ty.size = 0 := Ty.size_eq_zero.mpr (by simpa [hTy] using hValue)
  rw [← hName, ← hTy]
  exact Image.read_untyped h.legible hProgram hTyped hSize h.names hPositive hRange h.output

end Compiled.Stores

/-- The image of a compiled script is accepted by the reader exactly if all its global variables have
types of values. Otherwise the first one that does not is named as the reason. -/
theorem compile_read_iff (h : compile (some script) o = .ok c) (hBackend : o.theBackend = .image memory)
    (hMemory : memory < 2 ^ 31) (hNames : script.NamesEnd) :
    ((∃ img, Image.read c.output = .ok img) ↔ ∀ v ∈ script.globalVars, v.ty.isValue = true) ∧
      ∀ v, script.globalVars.find? (fun v => !v.ty.isValue) = some v →
        Image.read c.output = .error (.malformed (.globalType (Text.bytes v.name) v.ty)) := by
  have hStores := compile_stores h hBackend hMemory hNames
  refine ⟨⟨?_, fun hValues => ?_⟩, fun v hv => hStores.read_rejects hMemory hv⟩
  · rintro ⟨img, hRead⟩ v hv
    cases hFirst : script.globalVars.find? fun v => !v.ty.isValue with
    | none => simpa using List.find?_eq_none.mp hFirst v hv
    | some w => cases hRead.symm.trans (hStores.read_rejects hMemory hFirst)
  · obtain ⟨img, hRead, _⟩ := hStores.read_ok hMemory hValues
    exact ⟨img, hRead⟩

/-- A script with a variable that has no value:

    void g;
    default {
      state_entry() {
      }
    } -/
def Script.hollow : Script :=
  let entry : Handler :=
    { pos := {}, name := "state_entry", params := [], body := some { pos := {}, stmts := [] } }
  { pos := {}
    globals := [.var { pos := {}, name := "g", ty := .void, init := .missing }]
    states := [some { pos := {}, name := "default", events := [some entry] }] }

/-- A script that is compiled to an image which the reader rejects. -/
theorem compile_unreadable : ∃ c, compile (some .hollow) { library := some ⟨[]⟩, memory := 160 } = .ok
    c ∧
    Image.read c.output = .error (.malformed (.globalType (Text.bytes "g") .void)) := by
  have hRun : (match compile (some .hollow) { library := some ⟨[]⟩, memory := 160 } with
      | .ok c =>
        match Image.read c.output with
        | .error (.malformed (.globalType n t)) => decide (n = Text.bytes "g" ∧ t = .void)
        | _ => false
      | .error _ => false) = true := by decide +kernel
  split at hRun
  · next c hCompile =>
    split at hRun
    · next n t hRead =>
      obtain ⟨rfl, rfl⟩ := of_decide_eq_true hRun
      exact ⟨c, hCompile, hRead⟩
    · cases hRun
  · cases hRun

theorem Script.sample_namesEnd : Script.sample.NamesEnd where
  globals := by decide +kernel
  functions := by decide +kernel
  states := by
    intro st hst
    simp only [sample, mem_singleton, Option.some.injEq] at hst
    subst hst
    decide +kernel

/-- The script of the example, in a memory of 400 bytes. -/
theorem compile_read_iff_sample : ∃ c, compile (some .sample)
    { library := some ⟨[]⟩, memory := 400 } = .ok c ∧
    ∃ img, Image.read c.output = .ok img := by
  have hRun : (compile (some .sample) { library := some ⟨[]⟩, memory := 400 }).isOk = true := by
    decide +kernel
  cases hCompile : compile (some .sample) { library := some ⟨[]⟩, memory := 400 } with
  | error e => simp [hCompile, Except.isOk, Except.toBool] at hRun
  | ok c =>
    refine ⟨c, rfl, (compile_read_iff hCompile rfl (by decide) Script.sample_namesEnd).1.mpr ?_⟩
    decide +kernel

end Lsl
