import Lsl.Library.Basic
import Lsl.Proofs.Outcomes
import Mathlib.Data.List.Sort

/-! Tables of library functions. A table takes a function whose name and index are free and lists what it has
taken in the order of the indices, so it does not matter in which order the functions came. -/
namespace Lsl

namespace Library

variable {l l' : Library} {f : LibraryFunction} {fs gs : List LibraryFunction}

/-- A function that a table can take. -/
structure Admits (l : Library) (f : LibraryFunction) : Prop where
  name : ∀ g ∈ l.functions, g.name ≠ f.name
  index : ∀ g ∈ l.functions, g.index ≠ f.index
  range : 0 ≤ f.index ∧ f.index ≤ 0xffff

/-- A table takes just what it can. -/
theorem add_eq_ok : l.add f = .ok l' ↔ l.Admits f ∧ ⟨insertSorted f l.functions⟩ = l' := by
  unfold add
  split
  · next hTaken =>
    obtain ⟨g, hg, hName⟩ := List.find?_isSome.mp hTaken
    exact ⟨fun h => (by cases h), fun h => absurd (by simpa using hName) (h.1.name g hg)⟩
  · next hName =>
    have hNames := List.find?_eq_none.mp (Option.not_isSome_iff_eq_none.mp hName)
    split
    · next g hFound =>
      have hSame := List.find?_some hFound
      refine ⟨fun h => (by cases h), fun h => absurd ?_ (h.1.index g (List.mem_of_find?_eq_some hFound))⟩
      simpa using hSame
    · next hIndex =>
      have hIndices := List.find?_eq_none.mp hIndex
      split
      · next hRange =>
        refine ⟨fun h => (by cases h), fun h => absurd hRange ?_⟩
        have := h.1.range
        omega
      · next hRange =>
        rw [Except.ok.injEq, iff_and_self]
        exact fun _ => ⟨by simpa using hNames, by simpa using hIndices, by omega⟩

theorem insertSorted_perm (f : LibraryFunction) (fs : List LibraryFunction) :
    (insertSorted f fs).Perm (f :: fs) := by
  induction fs with
  | nil => exact .refl _
  | cons g fs ih =>
    rw [insertSorted]
    split
    · exact .refl _
    · exact (ih.cons g).trans (.swap f g fs)

/-- Functions in the order of their indices, no two of which are the same. -/
def Ascending (fs : List LibraryFunction) : Prop := fs.Pairwise fun f g => f.index < g.index

theorem Ascending.insertSorted (h : Ascending fs) (hFree : ∀ g ∈ fs, g.index ≠ f.index) :
    Ascending (insertSorted f fs) := by
  induction fs with
  | nil => exact List.pairwise_singleton _ _
  | cons g fs ih =>
    obtain ⟨hg, hRest⟩ := List.pairwise_cons.mp h
    rw [Library.insertSorted]
    split
    · next hLess =>
      refine List.pairwise_cons.mpr ⟨List.forall_mem_cons.mpr ⟨hLess, fun k hk => ?_⟩, h⟩
      exact Int.lt_trans hLess (hg k hk)
    · next hLess =>
      refine List.pairwise_cons.mpr ⟨fun k hk => ?_, ih hRest fun k hk => hFree k (by simp [hk])⟩
      rcases List.mem_cons.mp ((insertSorted_perm f fs).mem_iff.mp hk) with rfl | hk
      · have := hFree g (by simp)
        omega
      · exact hg k hk

/-- The order leaves no choice. -/
theorem Ascending.ext (hf : Ascending fs) (hg : Ascending gs) (hSame : ∀ f, f ∈ fs ↔ f ∈ gs) :
    fs = gs := by
  have : Std.Irrefl fun f g : LibraryFunction => f.index < g.index := ⟨fun _ => Int.lt_irrefl _⟩
  have : Std.Antisymm fun f g : LibraryFunction => f.index < g.index :=
    ⟨fun _ _ h h' => absurd h' (Int.lt_asymm h)⟩
  exact List.Pairwise.eq_of_mem_iff hf hg hSame

/-- A table as calls leave it. -/
structure Proper (l : Library) : Prop where
  names : (l.functions.map (·.name)).Nodup
  ascending : Ascending l.functions
  range : ∀ f ∈ l.functions, 0 ≤ f.index ∧ f.index ≤ 0xffff

theorem find?_key {β : Type} [BEq β] [LawfulBEq β] {key : LibraryFunction → β}
    (hKeys : (fs.map key).Nodup) : fs.find? (key · == key f) = some f ↔ f ∈ fs := by
  refine ⟨List.mem_of_find?_eq_some, fun h => ?_⟩
  cases hFind : fs.find? (key · == key f) with
  | none => simpa using List.find?_eq_none.mp hFind f h
  | some g =>
    have hSame := List.find?_some hFind
    rw [List.inj_on_of_nodup_map hKeys (List.mem_of_find?_eq_some hFind) h (by simpa using hSame)]

/-- A table against two maps, from names and from indices to functions. It holds in each
of them what it lists, and its list is what a sort by index makes of any listing of the functions that
stand under their names. -/
theorem Proper.maps (hl : l.Proper) : (∀ f, l.lookup? f.name = some f ↔ f ∈ l.functions) ∧
    (∀ f, l.atIndex? f.index = some f ↔ f ∈ l.functions) ∧
    ∀ fs : List LibraryFunction, fs.Nodup → (∀ f, f ∈ fs ↔ l.lookup? f.name = some f) →
      fs.mergeSort (·.index ≤ ·.index) = l.functions := by
  have hIndices : (l.functions.map (·.index)).Nodup := by
    rw [List.Nodup, List.pairwise_map]
    exact hl.ascending.imp Int.ne_of_lt
  refine ⟨fun f => find?_key hl.names, fun f => find?_key hIndices, fun fs hNodup hListed => ?_⟩
  have hSame := (List.perm_ext_iff_of_nodup hNodup hl.names.of_map).mpr fun f =>
    (hListed f).trans (find?_key hl.names)
  have hPerm := (List.mergeSort_perm fs (·.index ≤ ·.index)).trans hSame
  have hSorted : (fs.mergeSort (·.index ≤ ·.index)).Pairwise
      fun f g => decide (f.index ≤ g.index) = true :=
    List.pairwise_mergeSort (by simp only [decide_eq_true_eq]; omega) (by simp; omega) fs
  have hAscending : l.functions.Pairwise fun f g => decide (f.index ≤ g.index) = true :=
    hl.ascending.imp fun h => decide_eq_true (Int.le_of_lt h)
  refine hPerm.eq_of_pairwise (fun f g hf hg hLe hGe => ?_) hSorted hAscending
  exact List.inj_on_of_nodup_map hIndices (hPerm.mem_iff.mp hf) hg
    (Int.le_antisymm (of_decide_eq_true hLe) (of_decide_eq_true hGe))

theorem proper_empty : Proper {} := ⟨.nil, .nil, by simp⟩

theorem Proper.add (hl : l.Proper) (h : l.add f = .ok l') : l'.Proper := by
  obtain ⟨hAdmits, rfl⟩ := add_eq_ok.mp h
  have hPerm := insertSorted_perm f l.functions
  refine ⟨(hPerm.map _).nodup_iff.mpr (List.nodup_cons.mpr ⟨?_, hl.names⟩),
    hl.ascending.insertSorted hAdmits.index, fun g hg => ?_⟩
  · simpa using hAdmits.name
  · rcases List.mem_cons.mp (hPerm.mem_iff.mp hg) with rfl | hg
    · exact hAdmits.range
    · exact hl.range g hg

theorem Proper.addAll (hl : l.Proper) (h : l.addAll fs = .ok l') : l'.Proper := by
  induction fs generalizing l with
  | nil =>
    cases h
    exact hl
  | cons f fs ih =>
    rw [Library.addAll, List.foldlM_cons, bind_eq_ok] at h
    obtain ⟨l₁, hFirst, hRest⟩ := h
    exact ih (hl.add hFirst) hRest

theorem Proper.visible (hl : l.Proper) (privileged : Bool) :
    ((l.visible privileged).map (·.name)).Nodup ∧ Ascending (l.visible privileged) :=
  ⟨(List.filter_sublist.map _).nodup hl.names, hl.ascending.sublist List.filter_sublist⟩

def call (l : Library) (f : LibraryFunction) : Library := (l.add f).toOption.getD l

/-- The table that calls leave one after the other. -/
def ofCalls (fs : List LibraryFunction) : Library := fs.foldl call {}

/-- The functions that calls on a table add, in the order of the calls. -/
def accepted : Library → List LibraryFunction → List LibraryFunction
  | _, [] => []
  | l, f :: fs => (if (l.add f).isOk then [f] else []) ++ accepted (l.call f) fs

theorem call_cases (l : Library) (f : LibraryFunction) :
    (l.add f = .ok (l.call f) ∧ l.Admits f) ∨ (l.add f).isOk = false ∧ l.call f = l ∧
      ¬ l.Admits f := by
  cases h : l.add f with
  | ok l' => exact .inl ⟨by simp [call, h, Except.toOption], (add_eq_ok.mp h).1⟩
  | error e =>
    refine .inr ⟨rfl, by simp [call, h, Except.toOption], fun hAdmits => ?_⟩
    cases h.symm.trans (add_eq_ok.mpr ⟨hAdmits, rfl⟩)

/-- What a run of calls keeps: the table stays proper and holds what it held and what was added. -/
theorem Proper.calls (hl : l.Proper) :
    (fs.foldl call l).Proper ∧ (fs.foldl call l).functions.Perm (l.functions ++ accepted l fs) := by
  induction fs generalizing l with
  | nil => exact ⟨hl, by simp [accepted]⟩
  | cons f fs ih =>
    rw [List.foldl_cons, accepted]
    rcases call_cases l f with ⟨hAdd, _⟩ | ⟨hRefused, hSame, _⟩
    · obtain ⟨hProper, hPerm⟩ := ih (hl.add hAdd)
      have hTaken : (l.call f).functions.Perm (f :: l.functions) :=
        (add_eq_ok.mp hAdd).2 ▸ insertSorted_perm f l.functions
      refine ⟨hProper, hPerm.trans ?_⟩
      rw [hAdd, show (if (Except.ok (l.call f) : Except LibraryError Library).isOk then [f] else []) = [f]
        from rfl]
      exact (hTaken.append_right _).trans List.perm_middle.symm
    · rw [hRefused, hSame]
      exact ih hl

theorem proper_ofCalls (fs : List LibraryFunction) : (ofCalls fs).Proper := proper_empty.calls.1

end Library
end Lsl
