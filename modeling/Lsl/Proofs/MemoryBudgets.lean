import Lsl.Proofs.ImageRoundTrip

/-! The memory of an image. How much is asked for decides whether the sections of a program fit; it does
not change them. All that depends on it is where the stack starts, which three registers tell. -/
namespace Lsl

variable {i : Nat} {e : AssemblyError} {s : Sections} {p : Program}

namespace Registers

/-- The places of the base pointer, the stack pointer and the size of the memory. -/
def TellsMemory (i : Nat) : Prop := 8 ≤ i ∧ i < 16 ∨ 64 ≤ i ∧ i < 68

/-- The three registers that tell the memory, and the bytes before, between and after them. -/
theorem encode_eq (r : Registers) : ∃ front middle back : Bytes, front.length = 8 ∧ middle.length = 48 ∧
    ∀ bp sp tm, { r with bp, sp, tm }.encode =
      front ++ (int32 bp ++ int32 sp) ++ (middle ++ (int32 tm ++ back)) := by
  refine ⟨[r.ip, r.vn].flatMap int32, [r.hr, r.hp, r.cs, r.ns, r.ce, r.ie, r.er, r.fr, r.slr, r.gvr,
    r.gfr, r.sr].flatMap int32, [r.pr, r.esr].flatMap int32 ++ r.masks.flatMap word64, ?_, ?_, ?_⟩
  · simp
  · simp
  · intro bp sp tm
    simp [encode, words, masks]

theorem getElem?_encode (r : Registers) {bp sp tm bp' sp' tm' : Int32} (h : ¬ TellsMemory i) :
    { r with bp, sp, tm }.encode[i]? = { r with bp := bp', sp := sp', tm := tm' }.encode[i]? := by
  obtain ⟨front, middle, back, hFront, hMiddle, hEncode⟩ := r.encode_eq
  rw [TellsMemory] at h
  rw [hEncode, hEncode]
  simp only [List.getElem?_append, List.length_append, hFront, hMiddle, length_int32]
  split_ifs
  all_goals first | rfl | omega

end Registers

namespace Image

theorem addGlobal_eq_error {done : Bytes} {heap : Heap} {g : GlobalData}
    (h : addGlobal done heap g = .error e) : e.isOutOfMemory = false := by
  simp only [addGlobal] at h
  split at h
  · -- Whatever was to follow a misplaced global is not reached.
    split at h <;> cases h <;> rfl
  · split at h
    · split at h <;> cases h
      rfl
    · cases h

theorem foldlM_addGlobal_eq_error {gs : List GlobalData} {r : Bytes × Heap}
    (h : gs.foldlM (fun (s : Bytes × Heap) g => addGlobal s.1 s.2 g) r = .error e) :
    e.isOutOfMemory = false := by
  induction gs generalizing r with
  | nil => cases h
  | cons g gs ih =>
    rw [List.foldlM_cons, bind_eq_error] at h
    rcases h with hFirst | ⟨_, -, hRest⟩
    · exact addGlobal_eq_error hFirst
    · exact ih hRest

theorem functionEntry_eq_error {f : FunctionCode} (h : functionEntry f = .error e) :
    e.isOutOfMemory = false := by
  rw [functionEntry] at h
  split at h <;> cases h
  rfl

theorem stateEntry_eq_error {s : StateCode} (h : stateEntry s = .error e) : e.isOutOfMemory = false := by
  simp only [stateEntry, bind_eq_error, mapM_eq_error, pure_ok, reduceCtorEq, and_false, exists_false,
    or_false] at h
  obtain ⟨_, handler, _, _, -, -, h⟩ := h
  split at h <;> cases h
  rfl

/-- A program fails to have sections for a reason of its own. -/
theorem writeSections_eq_error (h : writeSections p = .error e) : e.isOutOfMemory = false := by
  simp only [writeSections, writeFunctions, writeStates, bind_eq_error, mapM_eq_error, pure_ok,
    reduceCtorEq, and_false, exists_false, or_false] at h
  rcases h with hGlobals | ⟨_, -, ⟨_, f, _, _, -, -, hf⟩ | ⟨_, -, _, s, _, _, -, -, hs⟩⟩
  · exact foldlM_addGlobal_eq_error hGlobals
  · exact functionEntry_eq_error hf
  · exact stateEntry_eq_error hs

/-- An image is made of the sections of its program if they fit into the memory. -/
theorem assemble_of_writeSections (h : writeSections p = .ok s) {memory : Int} (hPositive : 0 < memory) :
    assemble p memory =
      if memory < s.used then .error (.outOfMemory s.used memory)
      else .ok ((initialRegisters p s memory).encode ++ s.bytes ++
        List.replicate (memory.toNat - s.used) 0) := by
  have hBudget : budget memory = memory := if_neg (by omega)
  simp only [assemble, hBudget, h, ok_bind]
  split <;> rfl

theorem assemble_of_error (h : writeSections p = .error e) (memory : Int) : assemble p memory = .error e := by
  rw [assemble, h]
  rfl

theorem length_front (s : Sections) (r : Registers) : (r.encode ++ s.bytes).length = s.used := by
  obtain ⟨hUsed, hHr, hSr, hGfr⟩ := s.used_eq
  simp only [List.length_append, length_registers, Sections.bytes]
  omega

theorem getElem?_rest {r : Registers} {n : Nat} (hUsed : s.used ≤ i) (hi : i < n) :
    (r.encode ++ s.bytes ++ List.replicate (n - s.used) 0)[i]? = some 0 := by
  have hLength := length_front s r
  rw [List.getElem?_append_right (by omega), hLength, List.getElem?_replicate, if_pos (by omega)]

/-- A larger memory holds the same bytes, but for the registers that tell its size. -/
theorem getElem?_larger {m m' : Int} (hLe : m ≤ m') (hi : i < m.toNat) (h : ¬ Registers.TellsMemory i) :
    ((initialRegisters p s m').encode ++ s.bytes ++ List.replicate (m'.toNat - s.used) 0)[i]? =
      ((initialRegisters p s m).encode ++ s.bytes ++ List.replicate (m.toNat - s.used) 0)[i]? := by
  by_cases hRest : s.used ≤ i
  · rw [getElem?_rest hRest (by omega), getElem?_rest hRest hi]
  · have hLength : ∀ r : Registers, i < (r.encode ++ s.bytes).length := fun r => by
      rw [length_front]
      omega
    have hRegisters : (initialRegisters p s m').encode[i]? = (initialRegisters p s m).encode[i]? :=
      (initialRegisters p s m).getElem?_encode h
    rw [List.getElem?_append_left (hLength _), List.getElem?_append_left (hLength _),
      List.getElem?_append, List.getElem?_append, hRegisters, length_registers, length_registers]

/-- A program has no image in any memory, or one in every memory that is not smaller than its sections.
Behind the sections it is empty, and in a larger memory it is the same but for the registers that tell
the size. -/
theorem assemble_threshold (p : Program) :
    (∃ e, e.isOutOfMemory = false ∧ ∀ m, assemble p m = .error e) ∨
      ∃ used : Nat, ∀ m : Int, 0 < m →
        (m < used → assemble p m = .error (.outOfMemory used m)) ∧
        (used ≤ m → ∃ bytes, assemble p m = .ok bytes ∧ (bytes.length : Int) = m ∧
          (∀ i, used ≤ i → i < bytes.length → bytes[i]? = some 0) ∧
          ∀ m' bytes', m ≤ m' → assemble p m' = .ok bytes' →
            ∀ i < bytes.length, ¬ Registers.TellsMemory i → bytes'[i]? = bytes[i]?) := by
  cases hSections : writeSections p with
  | error e => exact .inl ⟨e, writeSections_eq_error hSections, assemble_of_error hSections⟩
  | ok s =>
    refine .inr ⟨s.used, fun m hPositive => ⟨fun hSmall => ?_, fun hUsed => ?_⟩⟩
    · rw [assemble_of_writeSections hSections hPositive, if_pos hSmall]
    · have hLength := @length_image s m.toNat (initialRegisters p s m) (by omega)
      refine ⟨_, by rw [assemble_of_writeSections hSections hPositive, if_neg (by omega)],
        by omega, fun i hi hEnd => getElem?_rest hi (by omega), fun m' bytes' hLe hLarger i hi hTells => ?_⟩
      rw [assemble_of_writeSections hSections (by omega), if_neg (by omega)] at hLarger
      cases hLarger
      exact getElem?_larger hLe (by omega) hTells

end Image
end Lsl
