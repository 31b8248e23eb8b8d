import Lsl.Proofs.ImageAccess
import Mathlib.Data.List.TakeWhile

/-! What the reader of images looks at. Every access but one is admitted by a check before it, so that
it stays inside the data whatever the registers, tables and headers hold. The exception is the name of
a state, which is looked up where the table of states says, also before the start of the data. -/
namespace Lsl.Image

open List

variable {o n next offset : Int} {events : UInt64} {bytes : Bytes}

def FailsOnly {α : Type} (P : ReadError → Prop) (m : Reading α) : Prop := ∀ e, m = .error e → P e

def Rejected (e : ReadError) : Prop := ∃ cause, e = .malformed cause

namespace FailsOnly

variable {α β : Type} {P Q : ReadError → Prop}

theorem ok (a : α) : FailsOnly P (.ok a) := nofun

theorem malformed (cause : Malformed) : FailsOnly Rejected (malformed cause : Reading α) := by
  rintro e ⟨⟩
  exact ⟨cause, rfl⟩

theorem mono {m : Reading α} (h : FailsOnly P m) (hPQ : ∀ e, P e → Q e) : FailsOnly Q m :=
  fun e he => hPQ e (h e he)

/-- A reading made of two fails as the first does, or as the second does on what the first gives. -/
theorem bind {m : Reading α} {f : α → Reading β} (hm : FailsOnly P m)
    (hf : ∀ a, m = .ok a → FailsOnly P (f a)) : FailsOnly P (m >>= f) := by
  intro e he
  rcases bind_eq_error.mp he with hFirst | ⟨a, ha, hSecond⟩
  · exact hm e hFirst
  · exact hf a ha e hSecond

theorem mapM {f : α → Reading β} {as : List α} (h : ∀ a ∈ as, FailsOnly P (f a)) :
    FailsOnly P (as.mapM f) := by
  intro e he
  obtain ⟨before, a, after, _, rfl, _, ha⟩ := mapM_eq_error.mp he
  exact h a (by simp) e ha

end FailsOnly

variable {data : Array UInt8} {start stop pos : Int}

/-- Bytes that are cut out of the data stand there. -/
theorem holds_extract {low high : Nat} (hLow : low ≤ high) (hHigh : high ≤ data.size) :
    Holds data low (data.extract low high).toList := by
  refine ⟨data.toList.take low, data.toList.drop high, ?_, by simp; omega⟩
  rw [Array.toList_extract, extract_eq_take_drop, append_assoc]
  have hRest : data.toList.drop high = (data.toList.drop low).drop (high - low) := by
    rw [drop_drop, Nat.add_sub_cancel' hLow]
  rw [hRest, take_append_drop, take_append_drop]

/-- What the accessors of an image hand out stands in the data. -/
structure ReadsInside (data : Array UInt8) : Prop where
  byte : ∀ {o b}, byteAt data o = .ok b → Holds data o [b]
  word : ∀ {o n}, wordAt data o = .ok n →
    ∃ bs, Holds data o bs ∧ bs.length = 4 ∧ n = (int32OfBytes bs).toInt
  long : ∀ {o n}, longAt data o = .ok n →
    ∃ bs, Holds data o bs ∧ bs.length = 8 ∧ n = UInt64.ofNat (natOfBytes bs)
  slice : ∀ {low high bs}, slice data low high = .ok bs → Holds data low bs ∧ low + bs.length = high
  string : ∀ {o name next}, stringAt data o = .ok (name, next) →
    Holds data o (name ++ [0]) ∧ 0 ∉ name ∧ next = o + name.length + 1
  types : ∀ {o name next}, stringAt data o = .ok (name, next) →
    ∃ bs, Holds data next bs ∧ typesFrom data next = bs.map fun b => Ty.ofTag b.toNat

theorem holds_byteAt {b : UInt8} (h : byteAt data o = .ok b) : Holds data o [b] := by
  unfold byteAt at h
  split at h
  · cases h
  · next hLow =>
    split at h
    · next b' hGet =>
      cases h
      obtain ⟨hHigh, hByte⟩ := Array.getElem?_eq_some_iff.mp hGet
      refine ⟨data.toList.take o.toNat, data.toList.drop (o.toNat + 1), ?_, by simp; omega⟩
      rw [append_assoc, singleton_append, ← hByte, ← Array.getElem_toList,
        ← drop_eq_getElem_cons, take_append_drop]
    · cases h

theorem holds_wordAt (h : wordAt data o = .ok n) :
    ∃ bs, Holds data o bs ∧ bs.length = 4 ∧ n = (int32OfBytes bs).toInt := by
  unfold wordAt at h
  split at h
  · cases h
  · next hRange =>
    cases h
    have hHolds := @holds_extract data o.toNat (o.toNat + 4) (by omega) (by omega)
    exact ⟨_, hHolds.shift (by omega), by simp; omega, rfl⟩

theorem holds_longAt {n : UInt64} (h : longAt data o = .ok n) :
    ∃ bs, Holds data o bs ∧ bs.length = 8 ∧ n = UInt64.ofNat (natOfBytes bs) := by
  unfold longAt at h
  split at h
  · cases h
  · next hRange =>
    cases h
    have hHolds := @holds_extract data o.toNat (o.toNat + 8) (by omega) (by omega)
    exact ⟨_, hHolds.shift (by omega), by simp; omega, rfl⟩

theorem holds_slice {low high : Int} {bs : Bytes} (h : slice data low high = .ok bs) :
    Holds data low bs ∧ low + bs.length = high := by
  unfold slice at h
  split at h
  · cases h
  · next hRange =>
    cases h
    have hHolds := @holds_extract data low.toNat high.toNat (by omega) (by omega)
    exact ⟨hHolds.shift (by omega), by simp; omega⟩

/-- A name ends at the first NUL behind it. -/
theorem holds_stringAt {name : Bytes} (h : stringAt data o = .ok (name, next)) :
    Holds data o (name ++ [0]) ∧ 0 ∉ name ∧ next = o + name.length + 1 := by
  unfold stringAt at h
  split at h
  · cases h
  · next hHigh =>
    split at h
    · cases h
    · next hLow =>
      simp only at h
      split at h
      · cases h
      · next hEnds =>
        cases h
        have hRest : Holds data o (data.extract o.toNat data.size).toList :=
          (holds_extract (by omega) le_rfl).shift (by omega)
        generalize (data.extract o.toNat data.size).toList = rest at hEnds hRest
        refine ⟨?_, fun hZero => ?_, rfl⟩
        · -- The bytes behind the name start with one that ends it.
          cases hTail : rest.dropWhile (· != 0) with
          | nil =>
            have hWhole := takeWhile_append_dropWhile (p := (· != 0)) (l := rest)
            rw [hTail, append_nil] at hWhole
            exact absurd (congrArg List.length hWhole) hEnds
          | cons b more =>
            have hStop := @List.head_dropWhile_not _ (· != 0) rest (by rw [hTail]; simp)
            simp only [hTail, head_cons, bne_eq_false_iff_eq] at hStop
            have hWhole := takeWhile_append_dropWhile (p := (· != 0)) (l := rest)
            rw [hTail, hStop, append_cons] at hWhole
            rw [← hWhole] at hRest
            exact hRest.left
        · simpa using mem_takeWhile_imp hZero

theorem holds_typesFrom (hLow : 0 ≤ o) (hHigh : o ≤ data.size) :
    ∃ bs, Holds data o bs ∧ typesFrom data o = bs.map fun b => Ty.ofTag b.toNat := by
  have hRest : Holds data o (data.extract o.toNat data.size).toList :=
    (holds_extract (by omega) le_rfl).shift (by omega)
  rw [← takeWhile_append_dropWhile (p := (· != 0)) (l := (data.extract o.toNat data.size).toList)]
    at hRest
  exact ⟨_, hRest.left, rfl⟩

theorem readsInside (data : Array UInt8) : ReadsInside data where
  byte := holds_byteAt
  word := holds_wordAt
  long := holds_longAt
  slice := holds_slice
  string := holds_stringAt
  types := fun h => by
    obtain ⟨hHolds, -, rfl⟩ := holds_stringAt h
    have hBounds := hHolds.bounds
    rw [length_append, length_singleton] at hBounds
    exact holds_typesFrom (by omega) (by omega)

theorem wordAt_rejects (o : Int) : FailsOnly Rejected (wordAt data o) := by
  unfold wordAt
  split
  · exact .malformed _
  · exact .ok _

theorem longAt_rejects (o : Int) : FailsOnly Rejected (longAt data o) := by
  unfold longAt
  split
  · exact .malformed _
  · exact .ok _

theorem slice_rejects (low high : Int) : FailsOnly Rejected (slice data low high) := by
  unfold slice
  split
  · exact .malformed _
  · exact .ok _

theorem stringAt_rejects (hLow : 0 ≤ o) : FailsOnly Rejected (stringAt data o) := by
  unfold stringAt
  split
  · exact .malformed _
  · rw [if_neg (by omega)]
    dsimp only
    split
    · exact .malformed _
    · exact .ok _

/-- A byte is there if a check has found its place inside the data. -/
theorem byteAt_rejects (hLow : 0 ≤ o) (hHigh : o < data.size) :
    FailsOnly Rejected (byteAt data o) := by
  have hGet : data[o.toNat]? = some _ := Array.getElem?_eq_getElem (by omega)
  rw [byteAt, if_neg (by omega), hGet]
  exact .ok _

theorem wordAt_bounds (h : wordAt data o = .ok n) : 0 ≤ o ∧ o + 4 ≤ data.size := by
  obtain ⟨bs, hHolds, hLength, _⟩ := holds_wordAt h
  have hBounds := hHolds.bounds
  omega

theorem readRegisters_rejects : FailsOnly Rejected (readRegisters data) := by
  unfold readRegisters
  repeat refine .bind (.bind (wordAt_rejects _) fun _ _ => .ok _) fun _ _ => ?_
  repeat refine .bind (longAt_rejects _) fun _ _ => ?_
  exact .ok _

/-- A global is rejected or read: its header is inside the section, which is inside the data. -/
theorem globalAt_rejects (hStop : stop ≤ data.size) :
    FailsOnly Rejected (globalAt data start stop pos) := by
  refine .bind (wordAt_rejects _) fun header hHeader => ?_
  have hBounds := wordAt_bounds hHeader
  split
  · exact .bind (.malformed _) nofun
  · refine .bind (byteAt_rejects (by omega) (by omega)) fun tag _ => ?_
    refine .bind (stringAt_rejects (by omega)) fun name _ => ?_
    dsimp only
    split
    · exact .bind (.malformed _) nofun
    · exact .bind (slice_rejects _ _) fun _ _ => .ok _

theorem readGlobals_rejects (hStop : stop ≤ data.size) (fuel : Nat) (pos : Int) :
    FailsOnly (fun e => Rejected e ∨ e = .endless) (readGlobals data start stop fuel pos) := by
  induction fuel generalizing pos with
  | zero =>
    unfold readGlobals
    split
    · exact .ok _
    · rintro e ⟨⟩
      exact .inr rfl
  | succ fuel ih =>
    unfold readGlobals
    split
    · exact .ok _
    · exact .bind ((globalAt_rejects hStop).mono fun _ => .inl) fun g _ =>
        .bind (ih g.2) fun _ _ => .ok _

theorem functionAt_rejects {place : Nat} (hStop : stop ≤ data.size) :
    FailsOnly Rejected (functionAt data start stop place offset next) := by
  refine .bind (wordAt_rejects _) fun toCode hWord => ?_
  have hBounds := wordAt_bounds hWord
  split
  · exact .bind (.malformed _) nofun
  · refine .bind (byteAt_rejects (by omega) (by omega)) fun tag _ => ?_
    refine .bind (stringAt_rejects (by omega)) fun name _ => ?_
    exact .bind (slice_rejects _ _) fun _ _ => .ok _

theorem readFunctions_rejects (hStop : stop ≤ data.size) :
    FailsOnly Rejected (readFunctions data start stop) := by
  refine .bind (wordAt_rejects _) fun count _ => ?_
  split
  · exact .bind (.malformed _) nofun
  · refine .bind (.mapM fun _ _ => wordAt_rejects _) fun offsets _ => ?_
    exact .mapM fun _ _ => functionAt_rejects hStop

/-- Before the start of the data there is no state, and no check that says so. -/
theorem stateAt_before (h : start + offset < 0) :
    stateAt data start offset stop events = .error (.outside (start + offset)) := by
  have hString : stringAt data (start + offset) = .error (.outside (start + offset)) := by
    rw [stringAt, if_neg (by omega), if_pos h]
  rw [stateAt, hString]
  rfl

theorem stateAt_rejects (h : 0 ≤ start + offset) :
    FailsOnly Rejected (stateAt data start offset stop events) := by
  refine .bind (stringAt_rejects h) fun name _ => ?_
  refine .bind (.mapM fun _ _ => ?_) fun rows _ => ?_
  · exact .bind (wordAt_rejects _) fun _ _ => .bind (wordAt_rejects _) fun _ _ => .ok _
  · exact .bind (.mapM fun _ _ => .bind (slice_rejects _ _) fun _ _ => .ok _) fun _ _ => .ok _

/-- Each block of the heap is rejected or leads on, because no block has a negative size; so the fuel
lasts to the end of the section. -/
theorem readHeap_rejects (hStop : stop ≤ data.size) (fuel : Nat) (pos : Int) (hFuel : stop < pos + fuel) :
    FailsOnly Rejected (readHeap data start stop fuel pos) := by
  induction fuel generalizing pos with
  | zero =>
    unfold readHeap
    rw [if_pos (by omega)]
    exact .malformed _
  | succ fuel ih =>
    unfold readHeap
    split
    · exact .malformed _
    · refine .bind (wordAt_rejects _) fun size hWord => ?_
      have hBounds := wordAt_bounds hWord
      split
      · exact .bind (.malformed _) nofun
      · refine .bind (byteAt_rejects (by omega) (by omega)) fun tag _ => ?_
        refine .bind (byteAt_rejects (by omega) (by omega)) fun high _ => ?_
        refine .bind (byteAt_rejects (by omega) (by omega)) fun low _ => ?_
        dsimp only
        split
        · exact .ok _
        · refine .bind (slice_rejects _ _) fun content hSlice => ?_
          obtain ⟨_, hLength⟩ := holds_slice hSlice
          exact .bind (ih _ (by omega)) fun _ _ => .ok _

def readHead (bytes : Bytes) : Reading Registers :=
  if bytes.toArray.size < Registers.size then malformed (.tooShort bytes.toArray.size)
  else do
    let r ← readRegisters bytes.toArray
    if r.vn ≠ Registers.version then malformed (.version r.vn)
    else if !sectionsOrdered r bytes.toArray.size then malformed .sectionOrder
    else return r

def stateRows (data : Array UInt8) (start stop : Int) : Reading (List (Int × UInt64)) := do
  let count ← wordAt data start
  if count < 0 ∨ stop < start + 4 + count * 12 then malformed (.stateCount count)
  (List.range count.toNat).mapM fun (i : Nat) => do
    let row := start + 4 + i * 12
    return (← wordAt data row, ← longAt data (row + 4))

/-- The rows of the table, each with the place where its state ends. -/
def stateSpans (start stop : Int) (rows : List (Int × UInt64)) : List ((Int × UInt64) × Int) :=
  rows.zip ((rows.drop 1).map (fun (o, _) => start + o) ++ [stop])

theorem readStates_eq_bind : readStates data start stop = stateRows data start stop >>= fun rows =>
    (stateSpans start stop rows).mapM fun ((o, events), next) => stateAt data start o next events := by
  rw [readStates, stateRows, bind_assoc]
  refine congrArg _ (funext fun count => ?_)
  split
  · rfl
  · rfl

theorem read_eq_bind (bytes : Bytes) : read bytes = readHead bytes >>= fun r => do
    let data := bytes.toArray
    let globals ← readGlobals data r.gvr.toInt r.gfr.toInt (r.gfr.toInt.toNat + 1) r.gvr.toInt
    let functions ← readFunctions data r.gfr.toInt r.sr.toInt
    let states ← readStates data r.sr.toInt r.hr.toInt
    let heap ← readHeap data r.hr.toInt r.hp.toInt (r.hp.toInt.toNat + 1) r.hr.toInt
    return { registers := r, globals, functions, states, heap } := by
  by_cases hShort : bytes.toArray.size < Registers.size
  · simp only [read, readHead, if_pos hShort]
    rfl
  · simp only [read, readHead, if_neg hShort, bind_assoc]
    refine congrArg _ (funext fun r => ?_)
    by_cases hVersion : r.vn ≠ Registers.version
    · simp only [if_pos hVersion]
      rfl
    · simp only [if_neg hVersion]
      split
      · rfl
      · rfl

theorem readHead_rejects (bytes : Bytes) : FailsOnly Rejected (readHead bytes) := by
  unfold readHead
  split
  · exact .malformed _
  · refine .bind readRegisters_rejects fun r _ => ?_
    split
    · exact .malformed _
    · split
      · exact .malformed _
      · exact .ok _

/-- Registers that are accepted lead to sections inside the data. -/
theorem readHead_ordered {r : Registers} (h : readHead bytes = .ok r) :
    r.gfr.toInt ≤ bytes.toArray.size ∧ r.sr.toInt ≤ bytes.toArray.size ∧ 0 ≤ r.hr.toInt ∧
      r.hp.toInt ≤ bytes.toArray.size := by
  unfold readHead at h
  split at h
  · cases h
  · obtain ⟨r', _, h⟩ := bind_eq_ok.mp h
    split at h
    · cases h
    · split at h
      · cases h
      · next hOrdered =>
        cases h
        simp only [sectionsOrdered, drop_succ_cons, drop_zero, zip_cons_cons,
          zip_nil_right, all_cons, all_nil, Bool.and_true, Bool.not_eq_true,
          Bool.not_eq_false', Bool.and_eq_true, decide_eq_true_eq, Registers.size] at hOrdered
        omega

theorem stateRows_rejects : FailsOnly Rejected (stateRows data start stop) := by
  refine .bind (wordAt_rejects _) fun count _ => ?_
  split
  · exact .bind (.malformed _) nofun
  · refine .mapM fun i _ => ?_
    exact .bind (wordAt_rejects _) fun _ _ => .bind (longAt_rejects _) fun _ _ => .ok _

/-- What the reader has accepted when it comes to the states. -/
structure ReachesStates (bytes : Bytes) (r : Registers) (rows : List (Int × UInt64)) : Prop where
  head : readHead bytes = .ok r
  globals : ∃ globals, readGlobals bytes.toArray r.gvr.toInt r.gfr.toInt (r.gfr.toInt.toNat + 1)
    r.gvr.toInt = .ok globals
  functions : ∃ functions, readFunctions bytes.toArray r.gfr.toInt r.sr.toInt = .ok functions
  rows : stateRows bytes.toArray r.sr.toInt r.hr.toInt = .ok rows

/-- A state lies at a place before the data, by its row in the table, and nothing before that state is
rejected. -/
def StraysTo (bytes : Bytes) (o : Int) : Prop :=
  o < 0 ∧ ∃ r rows before offset events next after states, ReachesStates bytes r rows ∧
    stateSpans r.sr.toInt r.hr.toInt rows = before ++ ((offset, events), next) :: after ∧
    (before.mapM fun ((o, events), next) => stateAt bytes.toArray r.sr.toInt o next events) = .ok states ∧
    o = r.sr.toInt + offset

def Circles (bytes : Bytes) : Prop :=
  ∃ r, readHead bytes = .ok r ∧ readGlobals bytes.toArray r.gvr.toInt r.gfr.toInt
    (r.gfr.toInt.toNat + 1) r.gvr.toInt = .error .endless

/-- The ways in which reading can fail. -/
theorem read_fails (bytes : Bytes) : FailsOnly (fun e => Rejected e ∨ (e = .endless ∧ Circles bytes) ∨
    ∃ o, e = .outside o ∧ StraysTo bytes o) (read bytes) := by
  rw [read_eq_bind]
  refine .bind ((readHead_rejects bytes).mono fun _ => .inl) fun r hHead => ?_
  obtain ⟨hGlobalsEnd, hFunctionsEnd, hHeapStart, hHeapEnd⟩ := readHead_ordered hHead
  refine .bind (fun e he => ?_) fun globals hGlobals => ?_
  · rcases readGlobals_rejects hGlobalsEnd _ _ e he with hRejected | rfl
    · exact .inl hRejected
    · exact .inr (.inl ⟨rfl, r, hHead, he⟩)
  refine .bind ((readFunctions_rejects hFunctionsEnd).mono fun _ => .inl) fun functions hFunctions => ?_
  refine .bind ?_ fun states _ => ?_
  · rw [readStates_eq_bind]
    refine .bind (stateRows_rejects.mono fun _ => .inl) fun rows hRows e he => ?_
    -- The first state that cannot be read decides: it lies before the data, or it is rejected.
    obtain ⟨before, ⟨⟨offset, events⟩, next⟩, after, states, hSpans, hBefore, hState⟩ :=
      mapM_eq_error.mp he
    by_cases hPlace : r.sr.toInt + offset < 0
    · cases hState.symm.trans (stateAt_before hPlace)
      exact .inr (.inr ⟨_, rfl, hPlace, r, rows, before, offset, events, next, after, states,
        ⟨hHead, ⟨globals, hGlobals⟩, ⟨functions, hFunctions⟩, hRows⟩, hSpans, hBefore, rfl⟩)
    · exact .inl (stateAt_rejects (by omega) e hState)
  · exact .bind ((readHeap_rejects hHeapEnd _ _ (by omega)).mono fun _ => .inl) fun _ _ => .ok _

theorem StraysTo.read_eq (h : StraysTo bytes o) :
    read bytes = .error (.outside o) := by
  obtain ⟨hPlace, r, rows, before, offset, events, next, after, states, hReaches, hSpans, hBefore, rfl⟩ :=
    h
  obtain ⟨globals, hGlobals⟩ := hReaches.globals
  obtain ⟨functions, hFunctions⟩ := hReaches.functions
  have hStates : readStates bytes.toArray r.sr.toInt r.hr.toInt =
      .error (.outside (r.sr.toInt + offset)) := by
    rw [readStates_eq_bind, hReaches.rows, ok_bind]
    exact mapM_eq_error.mpr ⟨before, _, after, states, hSpans, hBefore, stateAt_before hPlace⟩
  simp only [read_eq_bind, hReaches.head, ok_bind, hGlobals, hFunctions, hStates]
  rfl

/-- The reader looks outside the data exactly where a state lies before it. All that its accessors hand
out stands in the data, and other data is read, rejected, or leads in a circle. -/
theorem read_looks_inside (bytes : Bytes) :
    ReadsInside bytes.toArray ∧ (∀ o, read bytes = .error (.outside o) ↔ StraysTo bytes o) ∧
      ((∃ img, read bytes = .ok img) ∨ (∃ cause, read bytes = .error (.malformed cause)) ∨
        Circles bytes ∨ ∃ o, StraysTo bytes o) := by
  refine ⟨readsInside _, fun o => ⟨fun h => ?_, StraysTo.read_eq⟩, ?_⟩
  · rcases read_fails bytes _ h with ⟨_, hOther⟩ | ⟨hOther, _⟩ | ⟨o', hSame, hStrays⟩
    · cases hOther
    · cases hOther
    · cases hSame
      exact hStrays
  · cases h : read bytes with
    | ok img => exact .inl ⟨img, rfl⟩
    | error e =>
      rcases read_fails bytes e h with ⟨cause, rfl⟩ | ⟨_, hCircles⟩ | ⟨o, _, hStrays⟩
      · exact .inr (.inl ⟨cause, rfl⟩)
      · exact .inr (.inr (.inl hCircles))
      · exact .inr (.inr (.inr ⟨o, hStrays⟩))

/-- An image of one state, whose row leads to the byte before the data. -/
def strayImage : Bytes :=
  ({ vn := Registers.version, gvr := 100, gfr := 100, sr := 104, hr := 120, hp := 127 : Registers }).encode ++
    intWord 0 ++ intWord 1 ++ intWord (-105) ++ word64 0 ++ List.replicate 7 0

/-- Data on which the reader neither gives an image nor rejects it. -/
theorem read_strayImage : read strayImage = .error (.outside (-1)) := by
  have hRun : (match read strayImage with
      | .error (.outside o) => decide (o = -1)
      | _ => false) = true := by decide +kernel
  split at hRun
  · next o hRead => rw [hRead, of_decide_eq_true hRun]
  · cases hRun

end Lsl.Image
