import Lsl.Proofs.ReaderSafety
import Mathlib.Data.Finset.Card
import Mathlib.Data.Int.Interval
import Mathlib.Logic.Relation

/-! Whether the reader of images comes to an end. Each block of the heap leads to a larger position, since
no block has a negative size. A global leads to where its header says, which may be a position before it,
so the walk over the globals ends if and only if it does not come to one position twice. -/
namespace Lsl.Image

variable {data : Array UInt8} {start stop pos next : Int}

/-- One round of the walk over the globals: it has not come to the end of the section, a global is read
at `pos`, and the walk goes on at `next`. -/
def GlobalStep (data : Array UInt8) (start stop pos next : Int) : Prop :=
  pos < stop ∧ ∃ g, globalAt data start stop pos = .ok (g, next)

theorem globalStep_iff {data : Array UInt8} {start stop pos next : Int} :
    GlobalStep data start stop pos next ↔
      pos < stop ∧ (globalAt data start stop pos).toOption.map Prod.snd = some next := by
  refine and_congr_right fun _ => ?_
  cases globalAt data start stop pos with
  | error e => simp [Except.toOption]
  | ok found => simp [Except.toOption, Prod.ext_iff]

instance (data : Array UInt8) (start stop pos next : Int) : Decidable (GlobalStep data start stop pos next) :=
  decidable_of_iff _ globalStep_iff.symm

/-- The whole walk over the globals from a position on, as far as it has an end. -/
inductive WalksGlobals (data : Array UInt8) (start stop : Int) : Int → Reading (List GlobalEntry) →
    Prop where
  | stops {pos : Int} (hEnd : stop ≤ pos) : WalksGlobals data start stop pos (.ok [])
  | fails {pos : Int} {e : ReadError} (hMore : pos < stop)
      (hError : globalAt data start stop pos = .error e) :
      WalksGlobals data start stop pos (.error e)
  | passes {pos next : Int} {g : GlobalEntry} {rest : Reading (List GlobalEntry)} (hMore : pos < stop)
      (hGlobal : globalAt data start stop pos = .ok (g, next))
      (hRest : WalksGlobals data start stop next rest) :
      WalksGlobals data start stop pos (rest.map (g :: ·))

/-- The walk over the globals comes to some position and then to the same position again. -/
def TurnsRound (data : Array UInt8) (start stop pos : Int) : Prop :=
  ∃ again, Relation.ReflTransGen (GlobalStep data start stop) pos again ∧
    Relation.TransGen (GlobalStep data start stop) again again

/-- The header of a global leads from its position to its data, and the walk goes on behind the data. -/
theorem globalAt_next {g : GlobalEntry} (h : globalAt data start stop pos = .ok (g, next)) :
    0 ≤ pos ∧ ∃ header, wordAt data pos = .ok header ∧ 0 < g.ty.size ∧ 0 ≤ pos + header ∧
      next = pos + header + g.ty.size := by
  unfold globalAt at h
  obtain ⟨header, hHeader, h⟩ := bind_eq_ok.mp h
  split at h
  · cases h
  · obtain ⟨tag, _, h⟩ := bind_eq_ok.mp h
    obtain ⟨name, _, h⟩ := bind_eq_ok.mp h
    dsimp only at h
    split at h
    · cases h
    · next hSize =>
      obtain ⟨content, hContent, h⟩ := bind_eq_ok.mp h
      cases h
      have hLow := (holds_slice hContent).1.bounds
      exact ⟨(wordAt_bounds hHeader).1, header, hHeader, Nat.pos_of_ne_zero hSize, hLow.1, rfl⟩

/-- A position leads to one other at most. -/
theorem GlobalStep.unique {other : Int} (h : GlobalStep data start stop pos next)
    (h' : GlobalStep data start stop pos other) : next = other := by
  obtain ⟨_, g, hg⟩ := h
  obtain ⟨_, g', hg'⟩ := h'
  rw [hg] at hg'
  cases hg'
  rfl

theorem GlobalStep.inside (h : GlobalStep data start stop pos next) : 0 ≤ pos ∧ pos < stop := by
  obtain ⟨hMore, g, hg⟩ := h
  exact ⟨(globalAt_next hg).1, hMore⟩

/-- A walk that turns round takes a step and still turns round. -/
theorem TurnsRound.step (h : TurnsRound data start stop pos) :
    ∃ next, GlobalStep data start stop pos next ∧ TurnsRound data start stop next := by
  obtain ⟨again, hReach, hRound⟩ := h
  induction hReach using Relation.ReflTransGen.head_induction_on with
  | refl =>
    obtain ⟨next, hFirst, hRest⟩ := Relation.TransGen.head'_iff.mp hRound
    exact ⟨next, hFirst, again, hRest, hRound⟩
  | head hFirst hRest _ => exact ⟨_, hFirst, again, hRest, hRound⟩

theorem TurnsRound.not_walks {r : Reading (List GlobalEntry)} (h : WalksGlobals data start stop pos r) :
    ¬ TurnsRound data start stop pos := by
  induction h with
  | stops hEnd =>
    intro hRound
    obtain ⟨_, hStep, _⟩ := hRound.step
    exact absurd hStep.1 (by omega)
  | fails hMore hError =>
    intro hRound
    obtain ⟨_, ⟨_, g, hg⟩, _⟩ := hRound.step
    rw [hError] at hg
    cases hg
  | passes hMore hGlobal _ ih =>
    intro hRound
    obtain ⟨other, hStep, hOther⟩ := hRound.step
    have hSame : other = _ := hStep.unique ⟨hMore, _, hGlobal⟩
    subst hSame
    exact ih hOther

theorem readGlobals_zero (hMore : pos < stop) : readGlobals data start stop 0 pos = .error .endless := by
  unfold readGlobals
  rw [if_neg (by omega)]

theorem readGlobals_error {e : ReadError} (hMore : pos < stop) (h : globalAt data start stop pos = .error e)
    (fuel : Nat) : readGlobals data start stop (fuel + 1) pos = .error e := by
  rw [readGlobals, if_neg (by omega), h]
  rfl

theorem readGlobals_succ {g : GlobalEntry} (hMore : pos < stop)
    (h : globalAt data start stop pos = .ok (g, next)) (fuel : Nat) :
    readGlobals data start stop (fuel + 1) pos = (readGlobals data start stop fuel next).map (g :: ·) := by
  rw [readGlobals, if_neg (by omega), h, ok_bind]
  show (readGlobals data start stop fuel next >>= fun rest => pure (g :: rest)) = _
  cases readGlobals data start stop fuel next with
  | error e => rfl
  | ok rest => rfl

theorem readGlobals_stop (hEnd : stop ≤ pos) (fuel : Nat) :
    readGlobals data start stop fuel pos = .ok [] := by
  unfold readGlobals
  exact if_pos hEnd

/-- What is read within a number of rounds is what the walk finds, unless the rounds run out. -/
theorem readGlobals_walks (fuel : Nat) (pos : Int) :
    readGlobals data start stop fuel pos = .error .endless ∨
      WalksGlobals data start stop pos (readGlobals data start stop fuel pos) := by
  induction fuel generalizing pos with
  | zero =>
    rcases lt_or_ge pos stop with hMore | hEnd
    · exact .inl (readGlobals_zero hMore)
    · rw [readGlobals_stop hEnd]
      exact .inr (.stops hEnd)
  | succ fuel ih =>
    rcases lt_or_ge pos stop with hMore | hEnd
    · cases hGlobal : globalAt data start stop pos with
      | error e =>
        rw [readGlobals_error hMore hGlobal]
        exact .inr (.fails hMore hGlobal)
      | ok found =>
        obtain ⟨g, next⟩ := found
        rw [readGlobals_succ hMore hGlobal]
        rcases ih next with hEndless | hWalks
        · rw [hEndless]
          exact .inl rfl
        · exact .inr (.passes hMore hGlobal hWalks)
    · rw [readGlobals_stop hEnd]
      exact .inr (.stops hEnd)

/-- A walk that turns round takes any number of rounds. -/
theorem TurnsRound.readGlobals_eq (fuel : Nat) (h : TurnsRound data start stop pos) :
    readGlobals data start stop fuel pos = .error .endless := by
  induction fuel generalizing pos with
  | zero =>
    obtain ⟨_, hStep, _⟩ := h.step
    exact readGlobals_zero hStep.1
  | succ fuel ih =>
    obtain ⟨next, ⟨hMore, g, hg⟩, hNext⟩ := h.step
    rw [readGlobals_succ hMore hg, ih hNext]
    rfl

def globalNext (data : Array UInt8) (start stop pos : Int) : Int :=
  match globalAt data start stop pos with
  | .ok (_, next) => next
  | .error _ => pos

/-- The rounds that a walk has taken when its rounds have run out. -/
theorem readGlobals_endless {fuel : Nat} (h : readGlobals data start stop fuel pos = .error .endless)
    (hStop : stop ≤ data.size) {i : Nat} (hi : i < fuel) :
    GlobalStep data start stop ((globalNext data start stop)^[i] pos)
      ((globalNext data start stop)^[i + 1] pos) := by
  induction fuel generalizing pos i with
  | zero => cases hi
  | succ fuel ih =>
    rcases lt_or_ge pos stop with hMore | hEnd
    · cases hGlobal : globalAt data start stop pos with
      | error e =>
        rw [readGlobals_error hMore hGlobal] at h
        cases h
        obtain ⟨_, hOther⟩ := globalAt_rejects hStop _ hGlobal
        cases hOther
      | ok found =>
        obtain ⟨g, next⟩ := found
        have hNext : globalNext data start stop pos = next := by rw [globalNext, hGlobal]
        cases i with
        | zero =>
          show GlobalStep data start stop pos (globalNext data start stop pos)
          rw [hNext]
          exact ⟨hMore, g, hGlobal⟩
        | succ i =>
          rw [Function.iterate_succ_apply, Function.iterate_succ_apply, hNext]
          rw [readGlobals_succ hMore hGlobal] at h
          apply ih _ (by omega)
          cases hRest : readGlobals data start stop fuel next with
          | error e =>
            rw [hRest] at h
            exact h
          | ok rest =>
            rw [hRest] at h
            cases h
    · rw [readGlobals_stop hEnd] at h
      cases h

/-- Rounds one after the other lead from a position to a later one of the walk. -/
theorem transGen_iterate {step : Int → Int → Prop} {f : Int → Int} {i j : Nat}
    (h : ∀ k < j, step (f^[k] pos) (f^[k + 1] pos)) (hij : i < j) :
    Relation.TransGen step (f^[i] pos) (f^[j] pos) := by
  induction j, hij using Nat.le_induction with
  | base => exact .single (h i (by omega))
  | succ j _ ih => exact (ih fun k hk => h k (by omega)).tail (h j (by omega))

/-- A walk of more rounds than there are positions comes to one of them again. -/
theorem turnsRound_of_endless (hStop : stop ≤ data.size)
    (h : readGlobals data start stop (stop.toNat + 1) pos = .error .endless) :
    TurnsRound data start stop pos := by
  have hSteps : ∀ k < stop.toNat + 1, GlobalStep data start stop ((globalNext data start stop)^[k] pos)
      ((globalNext data start stop)^[k + 1] pos) := fun k hk => readGlobals_endless h hStop hk
  -- The positions of the first rounds lie inside the section, which has fewer of them than there are rounds.
  have hInside : ∀ k ∈ Finset.range (stop.toNat + 1),
      (globalNext data start stop)^[k] pos ∈ Finset.Ico 0 stop := by
    intro k hk
    rw [Finset.mem_Ico]
    exact (hSteps k (Finset.mem_range.mp hk)).inside
  have hCard : (Finset.Ico 0 stop).card < (Finset.range (stop.toNat + 1)).card := by
    rw [Int.card_Ico, Finset.card_range]
    omega
  have hRound : ∀ i j, i < j → j < stop.toNat + 1 →
      (globalNext data start stop)^[i] pos = (globalNext data start stop)^[j] pos →
      TurnsRound data start stop pos := by
    intro i j hij hj hSame
    have hAgain := transGen_iterate (fun k hk => hSteps k (by omega)) hij
    refine ⟨(globalNext data start stop)^[i] pos, ?_, by rwa [← hSame] at hAgain⟩
    rcases Nat.eq_zero_or_pos i with rfl | hPos
    · exact .refl
    · exact (transGen_iterate (i := 0) (fun k hk => hSteps k (by omega)) hPos).to_reflTransGen
  obtain ⟨i, hi, j, hj, hNe, hSame⟩ := Finset.exists_ne_map_eq_of_card_lt_of_maps_to hCard hInside
  rw [Finset.mem_range] at hi hj
  rcases Nat.lt_or_gt_of_ne hNe with hLt | hGt
  · exact hRound i j hLt hj hSame
  · exact hRound j i hGt hi hSame.symm

/-- The block of the heap at a position and the position behind it, or nothing where the heap ends. -/
def blockAt (data : Array UInt8) (start stop pos : Int) : Reading (Option (HeapBlock × Int)) := do
  let size ← wordAt data pos
  if stop < pos + 7 then malformed (.heapBlock pos)
  let t := Ty.ofTag (← byteAt data (pos + 4)).toNat
  let high ← byteAt data (pos + 5)
  let low ← byteAt data (pos + 6)
  if size = 0 ∧ t = .void then return none
  let content ← slice data (pos + 7) (pos + 7 + size)
  return some ({ handle := Int32.ofInt (pos - start + 1), ty := t,
                 refs := UInt16.ofNat (high.toNat * 256 + low.toNat), data := content }, pos + 7 + size)

/-- The heap is read block by block. -/
theorem readHeap_succ (hMore : pos < stop) (fuel : Nat) : readHeap data start stop (fuel + 1) pos =
    blockAt data start stop pos >>= fun
      | none => pure []
      | some (b, next) => readHeap data start stop fuel next >>= fun rest => pure (b :: rest) := by
  rw [readHeap, if_neg (by omega)]
  simp only [blockAt, bind_assoc]
  congr 1
  funext size
  by_cases hRoom : stop < pos + 7
  · simp only [if_pos hRoom]
    rfl
  · simp only [if_neg hRoom, bind_assoc]
    congr 1
    funext tag
    congr 1
    funext high
    congr 1
    funext low
    split
    · rfl
    · rw [bind_assoc]
      rfl

def HeapStep (data : Array UInt8) (start stop pos next : Int) : Prop :=
  pos < stop ∧ ∃ b, blockAt data start stop pos = .ok (some (b, next))

/-- A block is at least as large as its header, because its size is not negative. -/
theorem HeapStep.forward (h : HeapStep data start stop pos next) : pos < next := by
  obtain ⟨_, b, hb⟩ := h
  unfold blockAt at hb
  obtain ⟨size, _, hb⟩ := bind_eq_ok.mp hb
  split at hb
  · cases hb
  · obtain ⟨tag, _, hb⟩ := bind_eq_ok.mp hb
    obtain ⟨high, _, hb⟩ := bind_eq_ok.mp hb
    obtain ⟨low, _, hb⟩ := bind_eq_ok.mp hb
    split at hb
    · cases hb
    · obtain ⟨content, hContent, hb⟩ := bind_eq_ok.mp hb
      cases hb
      have hLength := (holds_slice hContent).2
      omega

theorem blockAt_not_endless : FailsOnly (· ≠ .endless) (blockAt data start stop pos) := by
  have hByte (o : Int) : FailsOnly (· ≠ .endless) (byteAt data o) := by
    intro e h
    unfold byteAt at h
    split at h
    · cases h
      nofun
    · split at h
      · cases h
      · cases h
        nofun
  have hRejected {e : ReadError} (h : Rejected e) : e ≠ .endless := by
    obtain ⟨_, rfl⟩ := h
    nofun
  refine .bind ((wordAt_rejects _).mono fun _ => hRejected) fun size _ => ?_
  split
  · exact .bind ((FailsOnly.malformed _).mono fun _ => hRejected) nofun
  · refine .bind (hByte _) fun tag _ => .bind (hByte _) fun high _ => .bind (hByte _) fun low _ => ?_
    split
    · exact .ok _
    · exact .bind ((slice_rejects _ _).mono fun _ => hRejected) fun _ _ => .ok _

/-- Since each round gets ahead, there are no more rounds than bytes up to the end of the heap. -/
theorem readHeap_ends (fuel : Nat) (pos : Int) (hFuel : stop < pos + fuel) :
    readHeap data start stop fuel pos ≠ .error .endless := by
  induction fuel generalizing pos with
  | zero =>
    unfold readHeap
    rw [if_pos (by omega)]
    intro h
    cases h
  | succ fuel ih =>
    rcases lt_or_ge pos stop with hMore | hEnd
    · rw [readHeap_succ hMore]
      intro h
      rcases bind_eq_error.mp h with hBlock | ⟨found, hBlock, hRest⟩
      · exact blockAt_not_endless _ hBlock rfl
      · cases found with
        | none => cases hRest
        | some found =>
          obtain ⟨b, next⟩ := found
          have hAhead : pos < next := HeapStep.forward ⟨hMore, b, hBlock⟩
          rcases bind_eq_error.mp hRest with hEndless | ⟨_, _, hOther⟩
          · exact ih next (by omega) hEndless
          · cases hOther
    · unfold readHeap
      rw [if_pos hEnd]
      intro h
      cases h

theorem circles_iff (bytes : Bytes) : Circles bytes ↔ ∃ r, readHead bytes = .ok r ∧
    TurnsRound bytes.toArray r.gvr.toInt r.gfr.toInt r.gvr.toInt := by
  constructor
  · rintro ⟨r, hHead, hEndless⟩
    exact ⟨r, hHead, turnsRound_of_endless (readHead_ordered hHead).1 hEndless⟩
  · rintro ⟨r, hHead, hRound⟩
    exact ⟨r, hHead, hRound.readGlobals_eq _⟩

theorem read_eq_endless_iff (bytes : Bytes) : read bytes = .error .endless ↔ Circles bytes := by
  constructor
  · intro h
    rcases read_fails bytes _ h with ⟨_, hOther⟩ | ⟨_, hCircles⟩ | ⟨_, hOther, _⟩
    · cases hOther
    · exact hCircles
    · cases hOther
  · rintro ⟨r, hHead, hEndless⟩
    rw [read_eq_bind, hHead, ok_bind]
    dsimp only
    rw [hEndless]
    rfl

/-- A walk along larger and larger positions does not turn round. -/
theorem TurnsRound.not_forward (h : TurnsRound data start stop pos) :
    ∃ low high, Relation.ReflTransGen (GlobalStep data start stop) pos high ∧
      GlobalStep data start stop high low ∧ low ≤ high := by
  obtain ⟨again, hReach, hRound⟩ := h
  by_contra hNone
  push Not at hNone
  have hRise : ∀ other, Relation.TransGen (GlobalStep data start stop) again other → again < other := by
    intro other hOther
    induction hOther with
    | single hStep => exact hNone _ _ hReach hStep
    | tail hBefore hStep ih => exact ih.trans (hNone _ _ (hReach.trans hBefore.to_reflTransGen) hStep)
  exact lt_irrefl _ (hRise again hRound)

/-- Where the reader gets ahead and where it does not. Each round over the heap leads to a larger position, so
these rounds have an end. A round over the globals goes on behind the data to which the header leads. They are
as large as the type of the global that is read there, so that position is larger unless the header is
negative by at least this size. Reading has no end exactly where the walk over the globals comes to one
position again; in particular some round over the globals then leads back. -/
theorem read_advances (bytes : Bytes) :
    (∀ start stop pos next, HeapStep bytes.toArray start stop pos next → pos < next) ∧
    (∀ (start stop pos : Int) (fuel : Nat), stop < pos + fuel →
      readHeap bytes.toArray start stop fuel pos ≠ .error .endless) ∧
    (∀ start stop pos next, GlobalStep bytes.toArray start stop pos next → ∃ (header : Int)
      (g : GlobalEntry),
      wordAt bytes.toArray pos = .ok header ∧ globalAt bytes.toArray start stop pos = .ok (g, next) ∧
        0 < g.ty.size ∧ next = pos + header + g.ty.size ∧
          (pos < next ↔ -(g.ty.size : Int) < header)) ∧
    (read bytes = .error .endless ↔ ∃ r, readHead bytes = .ok r ∧
      ¬ ∃ found, WalksGlobals bytes.toArray r.gvr.toInt r.gfr.toInt r.gvr.toInt found) ∧
    (read bytes = .error .endless ↔ ∃ r, readHead bytes = .ok r ∧
      TurnsRound bytes.toArray r.gvr.toInt r.gfr.toInt r.gvr.toInt) ∧
    (read bytes = .error .endless → ∃ r low high, readHead bytes = .ok r ∧
      Relation.ReflTransGen (GlobalStep bytes.toArray r.gvr.toInt r.gfr.toInt) r.gvr.toInt high ∧
      GlobalStep bytes.toArray r.gvr.toInt r.gfr.toInt high low ∧ low ≤ high) := by
  have hRound := (read_eq_endless_iff bytes).trans (circles_iff bytes)
  refine ⟨fun _ _ _ _ h => h.forward, fun _ _ pos fuel => readHeap_ends fuel pos, ?_, hRound.trans ?_,
    hRound, fun h => ?_⟩
  · rintro start stop pos next ⟨_, g, hg⟩
    obtain ⟨_, header, hHeader, hSize, _, hNext⟩ := globalAt_next hg
    exact ⟨header, g, hHeader, hg, hSize, hNext, by omega⟩
  · refine exists_congr fun r => and_congr_right fun hHead =>
      ⟨fun hTurns ⟨_, hWalks⟩ => ?_, fun hNone => ?_⟩
    · exact TurnsRound.not_walks hWalks hTurns
    · rcases @readGlobals_walks bytes.toArray r.gvr.toInt r.gfr.toInt (r.gfr.toInt.toNat + 1) r.gvr.toInt
        with hEndless | hWalks
      · exact turnsRound_of_endless (readHead_ordered hHead).1 hEndless
      · exact absurd ⟨_, hWalks⟩ hNone
  · obtain ⟨r, hHead, hTurns⟩ := hRound.mp h
    obtain ⟨low, high, hReach, hStep, hBack⟩ := hTurns.not_forward
    exact ⟨r, low, high, hHead, hReach, hStep, hBack⟩

/-- An image of one global whose header leads back into the registers, from where the walk goes on to the
end of the globals. -/
def turnedImage : Bytes :=
  ({ vn := Registers.version, bp := 98, sp := 0x01000000, gvr := 100, gfr := 110, sr := 114, hr := 118,
     hp := 125 : Registers }).encode ++
    intWord (-96) ++ 1 :: 0 :: intWord 0 ++ intWord 0 ++ intWord 0 ++ List.replicate 7 0

/-- An image of one global whose header leads back to the global itself. -/
def circlingImage : Bytes :=
  ({ vn := Registers.version, gvr := 100, gfr := 110, sr := 114, hr := 118, hp := 125 : Registers }).encode ++
    intWord (-4) ++ 1 :: 0 :: intWord 0 ++ intWord 0 ++ intWord 0 ++ List.replicate 7 0

/-- A round over the globals may lead back, and the image is accepted all the same; on another image the
reader goes round for ever. -/
theorem read_leads_back : GlobalStep turnedImage.toArray 100 110 100 8 ∧
    (∃ img, read turnedImage = .ok img) ∧ read circlingImage = .error .endless := by
  refine ⟨by decide +kernel, ?_, ?_⟩
  · have hRun : (read turnedImage).isOk = true := by decide +kernel
    cases hRead : read turnedImage with
    | ok img => exact ⟨img, rfl⟩
    | error e =>
      rw [hRead] at hRun
      cases hRun
  · rw [read_eq_endless_iff, circles_iff]
    have hHead : ((readHead circlingImage).toOption.map fun r => (r.gvr.toInt, r.gfr.toInt)) =
        some (100, 110) := by
      decide +kernel
    have hStep : GlobalStep circlingImage.toArray 100 110 100 100 := by decide +kernel
    cases hRead : readHead circlingImage with
    | error e =>
      rw [hRead] at hHead
      cases hHead
    | ok r =>
      rw [hRead] at hHead
      obtain ⟨hStart, hStop⟩ := Prod.mk.inj (Option.some.inj hHead)
      refine ⟨r, rfl, ?_⟩
      rw [hStart, hStop]
      exact ⟨100, .refl, .single hStep⟩

end Lsl.Image
