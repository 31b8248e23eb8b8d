import Lsl.Machine.Chunk
import Lsl.Proofs.Decoding
import Mathlib.Data.List.Induction
import Mathlib.Data.List.TakeWhile

/-! Runs of calls on a chunk. Displacements may be written at any time, also when some labels are still
missing: each time the jumps before the first open one get theirs, and what was written before is
written again or left alone. So the code of a run is that of its appended bytes in which the first
jumps lead to their labels, and it does not matter when the chunk was connected. -/
namespace Lsl

open List

variable {js ks : List PendingJump} {code : Bytes} {c : Chunk} {settled written : Nat}

namespace Chunk

/-- A call on a chunk. Numbers, floats and raw bytes are appended as bytes. -/
inductive Call where
  | append (bs : Bytes)
  | appendString (s : String)
  | emit (op : Opcode) (x : Operand)
  | define (l : Label)
  | emitJump (op : Opcode) (types : UInt8) (l : Label)
  | connect

namespace Call

def perform (c : Chunk) : Call → Chunk
  | append bs => c.append bs
  | appendString s => c.appendString s
  | emit op x => c.emit op x
  | define l => c.define l
  | emitJump op types l => c.emitJump op types l
  | connect => c.connect.1

def isConnect : Call → Bool
  | connect => true
  | _ => false

/-- The bytes that a call appends. A jump has no displacement yet. -/
def bytes : Call → Bytes
  | append bs => bs
  | appendString s => Text.bytes s ++ [0]
  | emit op x => op.byte :: x.encode
  | emitJump op types _ => op.byte :: (if op = .jump then [] else [types]) ++ int32 0
  | define _ | connect => []

def label? : Call → Option Label
  | define l => some l
  | _ => none

/-- The jump that a call which ends at `stop` leaves open. -/
def jump? (stop : Nat) : Call → Option PendingJump
  | emitJump _ _ l => some ⟨l, stop⟩
  | _ => none

end Call

variable {calls : List Call} {call : Call}

/-- The chunk that calls make of a new one. -/
def run (calls : List Call) : Chunk := calls.foldl Call.perform {}

def appended (calls : List Call) : Bytes := calls.flatMap Call.bytes

/-- The jumps among calls that start at `start`, each with the place where it ends. -/
def jumpsFrom (start : Nat) : List Call → List PendingJump
  | [] => []
  | c :: cs => (c.jump? (start + c.bytes.length)).toList ++ jumpsFrom (start + c.bytes.length) cs

/-- The labels that calls define, each with its place. -/
def labelsFrom (start : Nat) : List Call → List (Label × Int)
  | [] => []
  | c :: cs => (c.label?.map fun l => (l, (start : Int))).toList ++
      labelsFrom (start + c.bytes.length) cs

def recorded (calls : List Call) : Chunk where
  code := appended calls
  labels := (labelsFrom 0 calls).reverse
  jumps := jumpsFrom 0 calls

theorem jumpsFrom_append (start : Nat) (cs ds : List Call) :
    jumpsFrom start (cs ++ ds) = jumpsFrom start cs ++ jumpsFrom (start + (appended cs).length) ds := by
  induction cs generalizing start with
  | nil => rfl
  | cons c cs ih => simp [jumpsFrom, ih, appended, Nat.add_assoc]

theorem labelsFrom_append (start : Nat) (cs ds : List Call) :
    labelsFrom start (cs ++ ds) = labelsFrom start cs ++ labelsFrom (start + (appended cs).length) ds := by
  induction cs generalizing start with
  | nil => rfl
  | cons c cs ih => simp [labelsFrom, ih, appended, Nat.add_assoc]

theorem labelsFrom_labels (start : Nat) (cs : List Call) :
    (labelsFrom start cs).map Prod.fst = cs.filterMap Call.label? := by
  induction cs generalizing start with
  | nil => rfl
  | cons c cs ih =>
    rw [labelsFrom, map_append, ih, filterMap_cons]
    cases c.label? <;> rfl

theorem labelsFrom_bounds (start : Nat) (cs : List Call) :
    ∀ e ∈ labelsFrom start cs, (start : Int) ≤ e.2 ∧ e.2 ≤ start + (appended cs).length := by
  induction cs generalizing start with
  | nil => simp [labelsFrom]
  | cons c cs ih =>
    have hLength : (appended (c :: cs)).length = c.bytes.length + (appended cs).length := by simp [appended]
    intro e he
    rw [labelsFrom, mem_append, Option.mem_toList, Option.map_eq_some_iff] at he
    rcases he with ⟨l, _, rfl⟩ | he
    · exact ⟨le_rfl, by omega⟩
    · have := ih _ e he
      omega

theorem lookup_recorded_eq_none {l : Label} :
    (recorded calls).labels.lookup l = none ↔ l ∉ calls.filterMap Call.label? := by
  rw [← labelsFrom_labels 0, lookup_eq_none_iff]
  simp only [recorded, mem_reverse, bne_iff_ne, mem_map, not_exists, not_and]
  exact forall₂_congr fun e _ => ne_comm

/-- A call other than `connect` adds its bytes, its label and its jump to those before. -/
theorem perform_eq (h : call.isConnect = false) (c : Chunk) : call.perform c =
    { code := c.code ++ call.bytes
      labels := (call.label?.map fun l => (l, (c.size : Int))).toList ++ c.labels
      jumps := c.jumps ++ (call.jump? (c.size + call.bytes.length)).toList } := by
  cases call with
  | append bs | appendString s | emit op x | define l =>
    simp [Call.perform, Call.bytes, Call.label?, Call.jump?, append, appendString, emit, define, defineAt]
  | emitJump op types l =>
    by_cases hPlain : op = .jump <;>
      simp [Call.perform, Call.bytes, Call.label?, Call.jump?, emitJump, await, emit, append, size,
        Operand.encode, hPlain]
  | connect => cases h

theorem code_foldl (h : ∀ call ∈ calls, call.isConnect = false) (c : Chunk) :
    (calls.foldl Call.perform c).code = c.code ++ appended calls := by
  induction calls generalizing c with
  | nil => simp [appended]
  | cons call calls ih =>
    rw [forall_mem_cons] at h
    rw [foldl_cons, ih h.2, perform_eq h.1]
    simp [appended]

theorem recorded_append (h : call.isConnect = false) :
    recorded (calls ++ [call]) = call.perform (recorded calls) := by
  rw [perform_eq h]
  simp only [recorded, appended, jumpsFrom_append, labelsFrom_append, size, mk.injEq, jumpsFrom, labelsFrom]
  cases call.label? <;> simp

theorem recorded_connect (calls : List Call) : recorded (calls ++ [Call.connect]) = recorded calls := by
  simp [recorded, appended, jumpsFrom_append, labelsFrom_append, jumpsFrom, labelsFrom, Call.jump?,
    Call.label?, Call.bytes]

theorem run_append (calls : List Call) (call : Call) : run (calls ++ [call]) = call.perform (run calls) := by
  simp [run]

/-- Calls of which none connects make what they record. -/
theorem run_filter (calls : List Call) : run (calls.filter (!·.isConnect)) = recorded calls := by
  induction calls using List.reverseRecOn with
  | nil => rfl
  | append_singleton calls call ih =>
    rw [filter_append]
    cases h : call.isConnect with
    | true =>
      cases call with
      | connect => simp [h, ih, recorded_connect]
      | _ => cases h
    | false =>
      rw [recorded_append h, ← ih]
      simp [h, run_append]

/-- Jumps that end at places inside the code, with room for a displacement before each. -/
structure Spaced (size : Nat) (js : List PendingJump) : Prop where
  apart : js.Pairwise fun i j => i.site + 4 ≤ j.site
  inside : ∀ j ∈ js, 4 ≤ j.site ∧ j.site ≤ size

theorem spaced_jumpsFrom (start : Nat) (cs : List Call) :
    (jumpsFrom start cs).Pairwise (fun i j => i.site + 4 ≤ j.site) ∧
      ∀ j ∈ jumpsFrom start cs, (start : Int) + 4 ≤ j.site ∧ j.site ≤ start +
        (appended cs).length := by
  induction cs generalizing start with
  | nil => exact ⟨.nil, by simp [jumpsFrom]⟩
  | cons c cs ih =>
    obtain ⟨hApart, hInside⟩ := ih (start + c.bytes.length)
    have hLength : (appended (c :: cs)).length = c.bytes.length + (appended cs).length := by simp [appended]
    rw [jumpsFrom, hLength]
    cases c with
    | emitJump op types l =>
      have hRoom : 4 ≤ (Call.emitJump op types l).bytes.length := by simp [Call.bytes]
      simp only [Call.jump?, Option.toList_some, singleton_append, pairwise_cons,
        forall_mem_cons]
      refine ⟨⟨fun j hj => ?_, hApart⟩, ⟨by omega, by omega⟩, fun j hj => ?_⟩
      · have := hInside j hj
        omega
      · have := hInside j hj
        omega
    | _ =>
      refine ⟨hApart, fun j hj => ?_⟩
      have := hInside j hj
      omega

theorem spaced_recorded (calls : List Call) : Spaced (recorded calls).code.length (recorded calls).jumps := by
  obtain ⟨hApart, hInside⟩ := spaced_jumpsFrom 0 calls
  exact ⟨hApart, fun j hj => by simpa [recorded] using hInside j hj⟩

theorem Spaced.sublist {size : Nat} (h : Spaced size ks) (hSub : js.Sublist ks) :
    Spaced size js :=
  ⟨h.apart.sublist hSub, fun j hj => h.inside j (hSub.subset hj)⟩

@[simp] theorem length_overwrite (code : Bytes) (offset : Int) (bs : Bytes) :
    (overwrite code offset bs).length = code.length := by
  unfold overwrite
  split
  · simp
    omega
  · rfl

/-- Only the bytes between an offset and the end of the replacement change. -/
theorem getElem?_overwrite {bs : Bytes} {offset : Nat} (h : offset + bs.length ≤ code.length) (p : Nat) :
    (overwrite code offset bs)[p]? =
      if offset ≤ p ∧ p < offset + bs.length then bs[p - offset]? else code[p]? := by
  rw [overwrite, if_pos (by omega), Int.toNat_natCast]
  simp only [List.getElem?_append, length_append, length_take, List.getElem?_take,
    List.getElem?_drop, Nat.min_eq_left (show offset ≤ code.length by omega)]
  by_cases hFirst : p < offset
  · rw [if_pos (by omega), if_pos hFirst, if_pos hFirst, if_neg (by omega)]
  · by_cases hMiddle : p < offset + bs.length
    · rw [if_pos hMiddle, if_neg hFirst, if_pos (by omega)]
    · rw [if_neg hMiddle, if_neg (by omega)]
      congr 1
      omega

end Chunk

namespace PendingJump

def start (j : PendingJump) : Nat := (j.site - 4).toNat

/-- The displacement of a jump to where its label stands. -/
def word (labels : List (Label × Int)) (j : PendingJump) : Bytes :=
  intWord ((labels.lookup j.label).getD 0 - j.site)

def Covers (j : PendingJump) (p : Nat) : Prop := j.start ≤ p ∧ p < j.start + 4

instance (j : PendingJump) (p : Nat) : Decidable (j.Covers p) :=
  inferInstanceAs (Decidable (_ ∧ _))

end PendingJump

namespace Chunk

open PendingJump

def fill (labels : List (Label × Int)) (js : List PendingJump) (code : Bytes) : Bytes :=
  js.foldl (fun code j => overwrite code (j.site - 4) (j.word labels)) code

variable {labels : List (Label × Int)} {j : PendingJump} {ls : List PendingJump} {calls : List Call}
  {call : Call}

theorem fill_cons (j : PendingJump) :
    fill labels (j :: js) code = fill labels js (overwrite code (j.site - 4) (j.word labels)) := rfl

@[simp] theorem length_fill : (fill labels js code).length = code.length := by
  induction js generalizing code with
  | nil => rfl
  | cons j js ih => rw [fill_cons, ih, length_overwrite]

theorem getElem?_overwrite_word (h : 4 ≤ j.site ∧ j.site ≤ code.length) (p : Nat) :
    (overwrite code (j.site - 4) (j.word labels))[p]? =
      if j.Covers p then (j.word labels)[p - j.start]? else code[p]? := by
  have hStart : j.site - 4 = j.start := by rw [start]; omega
  have hRoom : (j.word labels).length = 4 := length_intWord _
  rw [hStart, getElem?_overwrite (by rw [hRoom]; omega), hRoom]
  rfl

/-- Bytes outside the displacements stay. -/
theorem fill_outside (hInside : ∀ j ∈ js, 4 ≤ j.site ∧ j.site ≤ code.length) {p : Nat}
    (h : ∀ j ∈ js, ¬ j.Covers p) : (fill labels js code)[p]? = code[p]? := by
  induction js generalizing code with
  | nil => rfl
  | cons j js ih =>
    rw [forall_mem_cons] at h hInside
    rw [fill_cons, ih (by simpa using hInside.2) h.2, getElem?_overwrite_word hInside.1, if_neg h.1]

/-- A displacement is that of its jump, whatever stood there before. -/
theorem fill_inside (h : Spaced code.length js) (hj : j ∈ js) {p : Nat} (hp : j.Covers p) :
    (fill labels js code)[p]? = (j.word labels)[p - j.start]? := by
  induction js generalizing code with
  | nil => cases hj
  | cons i js ih =>
    have hRest : Spaced (overwrite code (i.site - 4) (i.word labels)).length js := by
      simpa using h.sublist (sublist_cons_self i js)
    rw [fill_cons]
    rcases List.mem_cons.mp hj with rfl | hj
    · -- No later displacement reaches into this one.
      have hLater : ∀ k ∈ js, ¬ k.Covers p := by
        intro k hk hCovers
        have hGap := (List.pairwise_cons.mp h.apart).1 k hk
        have hPlace := h.inside j (by simp)
        simp only [Covers, start] at hp hCovers
        omega
      rw [fill_outside hRest.inside hLater, getElem?_overwrite_word (h.inside j (by simp)), if_pos hp]
    · exact ih hRest hj

theorem fill_append (hInside : ∀ j ∈ js, 4 ≤ j.site ∧ j.site ≤ code.length) (bs : Bytes) :
    fill labels js (code ++ bs) = fill labels js code ++ bs := by
  induction js generalizing code with
  | nil => rfl
  | cons j js ih =>
    rw [forall_mem_cons] at hInside
    have hHere : overwrite (code ++ bs) (j.site - 4) (j.word labels) =
        overwrite code (j.site - 4) (j.word labels) ++ bs := by
      refine ext_getElem? fun p => ?_
      have hBefore : j.Covers p → p < code.length := by
        simp only [Covers, start]
        omega
      rw [List.getElem?_append, length_overwrite, getElem?_overwrite_word hInside.1,
        getElem?_overwrite_word (by rw [length_append]; omega), List.getElem?_append]
      by_cases hCovers : j.Covers p
      · rw [if_pos hCovers, if_pos (hBefore hCovers), if_pos hCovers]
      · rw [if_neg hCovers, if_neg hCovers]
    rw [fill_cons, hHere, ih (by simpa using hInside.2), fill_cons]

theorem fill_congr {labels' : List (Label × Int)}
    (h : ∀ j ∈ js, labels'.lookup j.label = labels.lookup j.label) : fill labels' js code = fill labels
      js code := by
  induction js generalizing code with
  | nil => rfl
  | cons j js ih =>
    rw [forall_mem_cons] at h
    rw [fill_cons, fill_cons, ih h.2, word, word, h.1]

/-- To write displacements once more changes nothing: what counts is which jumps have theirs. -/
theorem fill_fill (hks : Spaced code.length ks) (hjs : js.Sublist ks) (hls : ls.Sublist ks)
    (hCover : ks ⊆ js ++ ls) : fill labels ls (fill labels js code) = fill labels ks code := by
  refine ext_getElem? fun p => ?_
  have hSpaced : Spaced (fill labels js code).length ls := by simpa using hks.sublist hls
  by_cases hLater : ∃ j ∈ ls, j.Covers p
  · obtain ⟨j, hj, hp⟩ := hLater
    rw [fill_inside hSpaced hj hp, fill_inside hks (hls.subset hj) hp]
  · push Not at hLater
    rw [fill_outside hSpaced.inside hLater]
    by_cases hFirst : ∃ j ∈ js, j.Covers p
    · obtain ⟨j, hj, hp⟩ := hFirst
      rw [fill_inside (hks.sublist hjs) hj hp, fill_inside hks (hjs.subset hj) hp]
    · push Not at hFirst
      rw [fill_outside (hks.sublist hjs).inside hFirst, fill_outside hks.inside fun j hj =>
        (List.mem_append.mp (hCover hj)).elim (hFirst j) (hLater j)]

def placed (labels : List (Label × Int)) (j : PendingJump) : Bool := (labels.lookup j.label).isSome

/-- The jumps before the first one whose label is missing get their displacements. -/
theorem resolve_fill : resolve labels js code = (fill labels (js.takeWhile (placed labels)) code,
    (js.dropWhile (placed labels)).head?.map fun j => .undefinedLabel j.label j.site) := by
  induction js generalizing code with
  | nil => rfl
  | cons j js ih =>
    rw [resolve, takeWhile_cons, dropWhile_cons, placed]
    cases hLabel : labels.lookup j.label with
    | none => rfl
    | some goal =>
      simp only [Option.isSome_some, if_true, ih, fill_cons, word, hLabel, Option.getD_some]

theorem connect_eq (c : Chunk) : c.connect =
    ({ c with
        code := fill c.labels (c.jumps.takeWhile (placed c.labels)) c.code
        jumps := if c.jumps.all (placed c.labels) then [] else c.jumps },
      (c.jumps.dropWhile (placed c.labels)).head?.map fun j => .undefinedLabel j.label j.site) := by
  rw [connect, resolve_fill]
  cases hRest : c.jumps.dropWhile (placed c.labels) with
  | nil =>
    rw [dropWhile_eq_nil_iff] at hRest
    simp [List.all_eq_true.mpr hRest]
  | cons j js =>
    have hOpen : c.jumps.all (placed c.labels) = false := by
      rw [← Bool.not_eq_true, all_eq_true, ← dropWhile_eq_nil_iff, hRest]
      simp
    simp [hOpen]

/-- A chunk is one that was never connected, with displacements for its first `written` jumps, of which
the first `settled` no longer wait. -/
structure Fills (base c : Chunk) (settled written : Nat) : Prop where
  labels : c.labels = base.labels
  jumps : c.jumps = base.jumps.drop settled
  le : settled ≤ written
  bound : written ≤ base.jumps.length
  known : ∀ j ∈ base.jumps.take written, placed base.labels j = true
  code : c.code = fill base.labels (base.jumps.take written) base.code

namespace Fills

variable {base : Chunk}

theorem refl (c : Chunk) : Fills c c 0 0 := ⟨rfl, rfl, Nat.le_refl _, Nat.zero_le _, by simp, rfl⟩

theorem size_eq (h : Fills base c settled written) : c.size = base.size := by
  rw [size, h.code, length_fill, size]

/-- A call that does not connect leaves the displacements as they are. -/
theorem place (h : Fills base c settled written) (hSpaced : Spaced base.code.length base.jumps)
    (hCall : call.isConnect = false) (hFresh : ∀ l, call.label? = some l → base.labels.lookup l = none) :
    Fills (call.perform base) (call.perform c) settled written := by
  have hSame : ∀ j ∈ base.jumps.take written,
      ((call.label?.map fun l => (l, (base.size : Int))).toList ++ base.labels).lookup j.label =
        base.labels.lookup j.label := by
    intro j hj
    cases hLabel : call.label? with
    | none => rfl
    | some l =>
      have hOther : j.label ≠ l := by
        rintro rfl
        have hKnown := h.known j hj
        rw [placed, hFresh _ hLabel] at hKnown
        cases hKnown
      simp [lookup_cons, beq_false_of_ne hOther]
  rw [perform_eq hCall, perform_eq hCall, h.size_eq, h.labels]
  refine ⟨rfl, ?_, h.le, ?_, ?_, ?_⟩
  · rw [drop_append_of_le_length (h.le.trans h.bound), ← h.jumps]
  · rw [length_append]
    exact Nat.le_add_right_of_le h.bound
  · rw [take_append_of_le_length h.bound]
    intro j hj
    rw [placed, hSame j hj]
    exact h.known j hj
  · rw [take_append_of_le_length h.bound, fill_congr hSame, h.code,
      fill_append (hSpaced.sublist (take_sublist ..)).inside]

/-- The jumps that can be connected are the first ones, among them all that are. -/
theorem takeWhile_eq (h : Fills base c settled written) {n : Nat} (hn : n ≤ written) :
    base.jumps.takeWhile (placed base.labels) =
      base.jumps.take n ++ (base.jumps.drop n).takeWhile (placed base.labels) := by
  have hKnown : ∀ j ∈ base.jumps.take n, placed base.labels j = true :=
    fun j hj => h.known j ((take_sublist_take_left hn).subset hj)
  rw [← takeWhile_append_of_pos hKnown, take_append_drop]

theorem dropWhile_eq (h : Fills base c settled written) :
    base.jumps.dropWhile (placed base.labels) = c.jumps.dropWhile (placed base.labels) := by
  have hKnown : ∀ j ∈ base.jumps.take settled, placed base.labels j = true :=
    fun j hj => h.known j ((take_sublist_take_left h.le).subset hj)
  conv_lhs => rw [← take_append_drop settled base.jumps, dropWhile_append_of_pos hKnown]
  rw [h.jumps]

/-- Connecting writes the displacements before the first missing label, whichever were written before. -/
theorem connect_eq (h : Fills base c settled written) (hSpaced : Spaced base.code.length base.jumps) :
    c.connect.1.code = fill base.labels (base.jumps.takeWhile (placed base.labels)) base.code ∧
      c.connect.2 = (base.jumps.dropWhile (placed base.labels)).head?.map fun j =>
        .undefinedLabel j.label j.site := by
  rw [Chunk.connect_eq, h.labels, h.dropWhile_eq, h.code]
  refine ⟨fill_fill (hSpaced.sublist (takeWhile_sublist _)) ?_ ?_ ?_, rfl⟩
  · rw [h.takeWhile_eq le_rfl]
    exact sublist_append_left ..
  · rw [h.takeWhile_eq h.le, h.jumps]
    exact sublist_append_right ..
  · rw [h.takeWhile_eq h.le, h.jumps]
    exact ((take_sublist_take_left h.le).append_right _).subset

/-- Connecting goes on from the displacements that are written. -/
theorem connect (h : Fills base c settled written) (hSpaced : Spaced base.code.length base.jumps) :
    ∃ settled' written', settled ≤ settled' ∧ written ≤ written' ∧
      Fills base c.connect.1 settled' written' := by
  have hPrefix : base.jumps.take (base.jumps.takeWhile (placed base.labels)).length =
      base.jumps.takeWhile (placed base.labels) := by
    rw [← List.prefix_iff_eq_take.mp (List.takeWhile_prefix _)]
  have hWritten : written ≤ (base.jumps.takeWhile (placed base.labels)).length := by
    rw [h.takeWhile_eq le_rfl, length_append, length_take]
    have := h.bound
    omega
  have hAll : c.jumps.all (placed c.labels) = true →
      (base.jumps.takeWhile (placed base.labels)).length = base.jumps.length := by
    rw [h.labels, all_eq_true, ← dropWhile_eq_nil_iff, ← h.dropWhile_eq]
    intro hNone
    have hSplit :=
      congrArg List.length (takeWhile_append_dropWhile (p := placed base.labels) (l := base.jumps))
    simpa [hNone] using hSplit
  have hBound := (takeWhile_sublist (placed base.labels) (l := base.jumps)).length_le
  refine ⟨if c.jumps.all (placed c.labels) then base.jumps.length else settled, _, ?_, hWritten,
    by rw [Chunk.connect_eq]; exact h.labels, ?_, ?_, hBound, ?_, ?_⟩
  · have := h.le.trans (hWritten.trans hBound)
    split <;> omega
  · rw [Chunk.connect_eq]
    split
    · simp
    · exact h.jumps
  · split
    · next hDone => exact (hAll hDone).ge
    · exact h.le.trans hWritten
  · rw [hPrefix]
    exact fun j hj => mem_takeWhile_imp hj
  · rw [hPrefix]
    exact (h.connect_eq hSpaced).1

end Fills

/-- Calls go on from the displacements that are written before them. -/
theorem Fills.run {done : List Call} (h : Fills (recorded done) c settled written) (calls : List Call)
    (hOnce : ((done ++ calls).filterMap Call.label?).Nodup) :
    ∃ settled' written', settled ≤ settled' ∧ written ≤ written' ∧
      Fills (recorded (done ++ calls)) (calls.foldl Call.perform c) settled' written' := by
  induction calls generalizing done c settled written with
  | nil => exact ⟨settled, written, le_rfl, le_rfl, by simpa using h⟩
  | cons call calls ih =>
    have hStep : ∃ settled' written', settled ≤ settled' ∧ written ≤ written' ∧
        Fills (recorded (done ++ [call])) (call.perform c) settled' written' := by
      cases hCall : call.isConnect with
      | true =>
        cases call with
        | connect =>
          rw [recorded_connect]
          exact h.connect (spaced_recorded done)
        | _ => cases hCall
      | false =>
        rw [recorded_append hCall]
        refine ⟨settled, written, le_rfl, le_rfl, h.place (spaced_recorded done) hCall fun l hl => ?_⟩
        rw [filterMap_append, nodup_append] at hOnce
        rw [lookup_recorded_eq_none]
        exact fun hMem => hOnce.2.2 l hMem l (by simp [hl]) rfl
    obtain ⟨n, m, hn, hm, hNext⟩ := hStep
    obtain ⟨n', m', hn', hm', hRest⟩ := ih hNext (by simpa using hOnce)
    exact ⟨n', m', hn.trans hn', hm.trans hm', by simpa using hRest⟩

theorem run_fills (hOnce : (calls.filterMap Call.label?).Nodup) :
    ∃ settled written, Fills (recorded calls) (run calls) settled written := by
  obtain ⟨n, m, _, _, h⟩ := (Fills.refl (recorded [])).run calls hOnce
  exact ⟨n, m, h⟩

/-- The signed word in the four bytes before a place of code. -/
def wordBefore (code : Bytes) (site : Nat) : Int :=
  (int32OfBytes ((code.take site).drop (site - 4))).toInt

theorem placed_iff : placed (recorded calls).labels j = true ↔ .define j.label ∈ calls := by
  rw [placed, ← not_iff_not, Bool.not_eq_true, Option.isSome_eq_false_iff, Option.isNone_iff_eq_none,
    lookup_recorded_eq_none, not_iff_not, mem_filterMap]
  constructor
  · rintro ⟨call, hCall, hLabel⟩
    cases call with
    | define l => cases hLabel; exact hCall
    | _ => cases hLabel
  · exact fun hCall => ⟨_, hCall, rfl⟩

/-- A jump whose displacement is written leads to its label. -/
theorem Fills.lands (h : Fills (recorded calls) c settled written) (hSize : c.size < 2 ^ 31)
    (hj : j ∈ (recorded calls).jumps.take written) :
    ∃ goal, (j.label, goal) ∈ labelsFrom 0 calls ∧ c.labelOffset? j.label = some goal ∧
      wordBefore c.code j.site.toNat + j.site = goal := by
  have hSpaced := (spaced_recorded calls).sublist (take_sublist written _)
  have hSite := hSpaced.inside j hj
  obtain ⟨goal, hGoal⟩ := Option.isSome_iff_exists.mp (h.known j hj)
  have hMem : (j.label, goal) ∈ labelsFrom 0 calls := by
    obtain ⟨_, _, hSplit, _⟩ := List.lookup_eq_some_iff.mp hGoal
    have hHere : (j.label, goal) ∈ (labelsFrom 0 calls).reverse := by
      rw [show (labelsFrom 0 calls).reverse = _ from hSplit]
      simp
    exact List.mem_reverse.mp hHere
  have hBounds : 0 ≤ goal ∧ goal ≤ (recorded calls).code.length := by
    simpa [recorded] using labelsFrom_bounds 0 calls _ hMem
  have hBytes : (c.code.take j.site.toNat).drop (j.site.toNat - 4) = intWord (goal - j.site) := by
    refine ext_getElem? fun k => ?_
    have hStart : j.site.toNat - 4 = j.start := by rw [PendingJump.start]; omega
    have hWord : j.word (recorded calls).labels = intWord (goal - j.site) := by
      rw [PendingJump.word, hGoal, Option.getD_some]
    rw [List.getElem?_drop, List.getElem?_take, hStart, ← hWord]
    split
    · have hCovers : j.Covers (j.start + k) := ⟨by omega, by omega⟩
      rw [h.code, fill_inside hSpaced hj hCovers, Nat.add_sub_cancel_left]
    · rw [List.getElem?_eq_none]
      rw [hWord, length_intWord]
      omega
  refine ⟨goal, hMem, ?_, ?_⟩
  · rw [labelOffset?, h.labels, hGoal]
  · rw [h.size_eq] at hSize
    rw [size] at hSize
    rw [wordBefore, hBytes, intWord, int32OfBytes_int32, toInt_ofInt (by omega) (by omega)]
    omega

/-- Relocation along a run of calls. Whenever the chunk could be connected, all jumps before lead to
their labels from then on; the other bytes are those that were appended, and what is connected before
the last time makes no difference to the code at the end. -/
structure Relocated (calls : List Call) : Prop where
  connects : ∀ before after, calls = before ++ .connect :: after →
    ((run before).connect.2 = none ↔ ∀ j ∈ (run before).jumps, .define j.label ∈ before)
  settles : ∀ before after, calls = before ++ .connect :: after → (run before).connect.2 = none →
    (run (before ++ [.connect])).pending = 0 ∧ ∀ j ∈ jumpsFrom 0 before, ∃ goal,
      (j.label, goal) ∈ labelsFrom 0 calls ∧ (run calls).labelOffset? j.label = some goal ∧
        wordBefore (run calls).code j.site.toNat + j.site = goal
  outside : (run calls).size = (appended calls).length ∧
    ∀ p : Nat, (∀ j ∈ jumpsFrom 0 calls, ¬ (j.site - 4 ≤ p ∧ p < j.site)) →
      (run calls).code[p]? = (appended calls)[p]?
  final : ∀ before after, calls = before ++ .connect :: after →
    (∀ call ∈ after, call.isConnect = false) →
    (run before).connect.2 = (run (before.filter (!·.isConnect))).connect.2 ∧
      (run calls).code = (run (before.filter (!·.isConnect) ++ .connect :: after)).code

theorem connect_outcome : c.connect.2 = none ↔ ∀ j ∈ c.jumps, placed c.labels j = true := by
  rw [connect_eq, Option.map_eq_none_iff, List.head?_eq_none_iff, dropWhile_eq_nil_iff]

/-- When connecting succeeds, no jump waits any longer and all of them have their displacements. -/
theorem Fills.settle (h : Fills (recorded calls) c settled written) (hDone : c.connect.2 = none) :
    c.connect.1.jumps = [] ∧ ∃ settled' written', (recorded calls).jumps.length ≤ written' ∧
      Fills (recorded (calls ++ [Call.connect])) c.connect.1 settled' written' := by
  have hNone : c.connect.1.jumps = [] := by
    rw [Chunk.connect_eq, if_pos (List.all_eq_true.mpr (connect_outcome.mp hDone))]
  obtain ⟨n, m, _, _, hConnected⟩ := h.connect (spaced_recorded calls)
  have hLeft := hConnected.jumps
  rw [hNone, eq_comm, drop_eq_nil_iff] at hLeft
  exact ⟨hNone, n, m, hLeft.trans hConnected.le, by rwa [recorded_connect]⟩

theorem run_relocated {calls : List Call} (hOnce : (calls.filterMap Call.label?).Nodup)
    (hSize : (run calls).size < 2 ^ 31) : Relocated calls := by
  have hStart : ∀ before after, calls = before ++ .connect :: after →
      ∃ settled written, Fills (recorded before) (run before) settled written := by
    rintro before after rfl
    rw [filterMap_append, nodup_append] at hOnce
    exact run_fills hOnce.1
  obtain ⟨n, m, hFills⟩ := run_fills hOnce
  refine ⟨fun before after hSplit => ?_, fun before after hSplit hDone => ?_,
    ⟨hFills.size_eq, fun p hp => ?_⟩,
    fun before after hSplit hLast => ?_⟩
  · obtain ⟨_, _, h⟩ := hStart before after hSplit
    rw [connect_outcome, h.labels]
    simp only [placed_iff]
  · obtain ⟨_, _, h⟩ := hStart before after hSplit
    obtain ⟨hNone, _, written, hAll, hConnected⟩ := h.settle hDone
    obtain ⟨_, later, _, hLater, hNow⟩ := hConnected.run after (by simpa [hSplit] using hOnce)
    have hRun : after.foldl Call.perform (run before).connect.1 = run calls := by
      simp [hSplit, run, Call.perform]
    have hCalls : before ++ [Call.connect] ++ after = calls := by simp [hSplit]
    have hFirst : (recorded calls).jumps.take (recorded before).jumps.length = jumpsFrom 0 before := by
      simp [hSplit, recorded, jumpsFrom_append]
    rw [hRun, hCalls] at hNow
    refine ⟨?_, fun j hj => hNow.lands hSize ?_⟩
    · rw [run_append, pending]
      exact congrArg List.length hNone
    · refine (take_sublist_take_left (hAll.trans hLater)).subset ?_
      rwa [hFirst]
  · rw [hFills.code]
    refine fill_outside ((spaced_recorded calls).sublist (take_sublist ..)).inside fun j hj hCovers => ?_
    have hSite := (spaced_recorded calls).inside j (mem_of_mem_take hj)
    simp only [PendingJump.Covers, PendingJump.start] at hCovers
    exact hp j (mem_of_mem_take hj) (by omega)
  · obtain ⟨_, _, h⟩ := hStart before after hSplit
    obtain ⟨hCode, hOutcome⟩ := h.connect_eq (spaced_recorded before)
    obtain ⟨hPlain, hSame⟩ := (Fills.refl (recorded before)).connect_eq (spaced_recorded before)
    have hRun : ∀ calls, (run (calls ++ .connect :: after)).code = (run calls).connect.1.code ++ appended
      after := by
      intro calls
      rw [run, foldl_append, foldl_cons, code_foldl hLast]
      rfl
    rw [hSplit, hRun, hRun, run_filter, hCode, hPlain]
    exact ⟨hOutcome.trans hSame.symm, rfl⟩

/-- A forward jump is connected too early, then with a backward jump between, and a second forward jump
after that. -/
def crossing : List Call :=
  [.emitJump .jumpIf 0x10 1, .connect, .define 2, .append [7, 7], .emitJump .jump 0 2, .define 1, .connect,
    .emitJump .jumpNot 0x10 3, .connect, .appendString "a", .define 3, .connect]

theorem run_relocated_crossing : (crossing.filterMap Call.label?).Nodup ∧ (run crossing).size < 2 ^ 31 ∧
    Relocated crossing := by
  have hOnce : (crossing.filterMap Call.label?).Nodup := by decide
  have hSize : (run crossing).size < 2 ^ 31 := by decide +kernel
  exact ⟨hOnce, hSize, run_relocated hOnce hSize⟩

end Chunk
end Lsl
