import Lsl.Text.Number
import Mathlib.Algebra.Ring.Nat
import Mathlib.Data.List.Basic

/-! Numerals. The digits of a number tell it, with zeros before them or without, so that hexadecimal text can
be read back: an address in a listing, or a character that is written by its number. -/
namespace Lsl.Text

open List

variable {b n width : Nat} {tail : List Nat}

def hexNumber (cs : List Char) : Nat := cs.foldl (fun n c => n * 16 + (hexValue? c).getD 0) 0

/-- Digits are worth what they were taken from, before any further ones. -/
theorem foldl_digitsFrom (b n : Nat) (tail : List Nat) :
    (digitsFrom b n tail).foldl (fun m d => m * (b + 2) + d) 0 = tail.foldl (fun m d => m * (b + 2) + d)
      n := by
  fun_induction digitsFrom b n tail with
  | case1 n tail h => simp
  | case2 n tail h hLess ih => rw [ih, foldl_cons, Nat.div_add_mod']

theorem digitsFrom_lt (hTail : ∀ d ∈ tail, d < b + 2) :
    ∀ d ∈ digitsFrom b n tail, d < b + 2 := by
  fun_induction digitsFrom b n tail with
  | case1 n tail hn => exact List.forall_mem_cons.mpr ⟨hn, hTail⟩
  | case2 n tail hn hLess ih => exact ih (List.forall_mem_cons.mpr ⟨Nat.mod_lt _ (by omega), hTail⟩)

theorem length_digitsFrom_le (h : n < (b + 2) ^ (width + 1)) :
    (digitsFrom b n tail).length ≤ width + 1 + tail.length := by
  induction width generalizing n tail with
  | zero =>
    rw [digitsFrom, dif_pos (by simpa using h), length_cons]
    omega
  | succ width ih =>
    rw [digitsFrom]
    split
    · rw [length_cons]
      omega
    · have hRest :=
        @ih (n / (b + 2)) (n % (b + 2) :: tail) (Nat.div_lt_of_lt_mul (by rwa [← Nat.pow_succ']))
      rw [length_cons] at hRest
      exact Nat.le_trans hRest (by omega)

theorem hexValue?_hexDigit {d : Nat} (h : d < 16) :
    hexValue? (hexDigit d) = some d ∧ hexValue? (hexDigit d).toUpper = some d := by
  have hAll : ∀ d : Fin 16, hexValue? (hexDigit d) = some d.val ∧ hexValue? (hexDigit d).toUpper = some
    d.val := by
    decide
  exact hAll ⟨d, h⟩

/-- The digits of a number with zeros before them, each written by `f`. -/
theorem padLeft_hex {f : Char → Char} (hf : ∀ d < 16, hexValue? (f (hexDigit d)) = some d)
    (width n : Nat) :
    hexNumber (padLeft '0' width ((hex n).map f)).toList = n ∧
      ∀ c ∈ (padLeft '0' width ((hex n).map f)).toList, hexValue? c ≠ none := by
  have hDigits : ∀ d ∈ digitsFrom 14 n [], d < 16 := digitsFrom_lt (by simp)
  have hZeros : ∀ k, (List.replicate k '0').foldl (fun n c => n * 16 + (hexValue? c).getD 0) 0 = 0 := by
    intro k
    induction k with
    | zero => rfl
    | succ k ih => simpa [replicate_succ, hexValue?] using ih
  simp only [padLeft, hex, hexNumber, String.toList_append, String.toList_map, String.toList_ofList,
    foldl_append, hZeros, foldl_map]
  constructor
  · refine (foldl_ext _ (fun n d => n * 16 + d) 0 fun m d hd => ?_).trans (foldl_digitsFrom 14 n [])
    rw [hf d (hDigits d hd), Option.getD_some]
  · intro c hc
    rcases List.mem_append.mp hc with hZero | hDigit
    · rw [eq_of_mem_replicate hZero]
      decide
    · simp only [mem_map, map_map] at hDigit
      obtain ⟨d, hd, rfl⟩ := hDigit
      simp [hf d (hDigits d hd)]

theorem hexNumber_hexPadded (width n : Nat) : hexNumber (hexPadded width n).toList = n := by
  have h := (padLeft_hex (f := id) (fun _ hd => (hexValue?_hexDigit hd).1) width n).1
  simpa [hexPadded] using h

theorem length_hexPadded (h : n < 16 ^ (width + 1)) :
    (hexPadded (width + 1) n).toList.length = width + 1 := by
  have hLength := @length_digitsFrom_le 14 n width [] h
  simp only [hexPadded, padLeft, hex, String.toList_append, String.toList_ofList, length_append,
    length_replicate, length_map, ← String.length_toList, length_nil] at hLength ⊢
  omega

theorem upperHex_ofNat (width n : Nat) :
    (upperHex width (.ofNat n)).toList = (padLeft '0' width ((hex n).map Char.toUpper)).toList := rfl

theorem upperHex_negSucc (width n : Nat) : (upperHex width (.negSucc n)).toList =
    '-' :: (padLeft '0' (width - 1) ((hex (n + 1)).map Char.toUpper)).toList := by
  simp [upperHex]

theorem padLeft_upper (width n : Nat) :
    hexNumber (padLeft '0' width ((hex n).map Char.toUpper)).toList = n ∧
      ∀ c ∈ (padLeft '0' width ((hex n).map Char.toUpper)).toList, hexValue? c ≠ none :=
  padLeft_hex (fun _ hd => (hexValue?_hexDigit hd).2) width n

theorem mem_upperHex {n : Int} {c : Char} (h : c ∈ (upperHex width n).toList) :
    hexValue? c ≠ none ∨ c = '-' := by
  cases n with
  | ofNat n => exact .inl ((padLeft_upper width n).2 c h)
  | negSucc n =>
    rw [upperHex_negSucc] at h
    exact (List.mem_cons.mp h).symm.imp_left ((padLeft_upper (width - 1) (n + 1)).2 c)

/-- An address tells the number that it shows, with its sign. -/
theorem upperHex_inj {m n : Int} : upperHex width m = upperHex width n ↔ m = n := by
  refine ⟨fun h => ?_, congrArg _⟩
  have hMinus : ∀ {n k : Nat} {cs : List Char},
      (padLeft '0' k ((hex n).map Char.toUpper)).toList ≠ '-' :: cs := by
    intro n k cs hText
    exact (padLeft_upper k n).2 '-' (by simp [hText]) (by decide)
  have hText := congrArg String.toList h
  cases m with
  | ofNat m =>
    cases n with
    | ofNat n =>
      rw [← (padLeft_upper width m).1, ← upperHex_ofNat, hText, upperHex_ofNat, (padLeft_upper width n).1]
    | negSucc n => exact absurd (hText.trans (upperHex_negSucc width n)) hMinus
  | negSucc m =>
    rw [upperHex_negSucc] at hText
    cases n with
    | ofNat n => exact absurd hText.symm hMinus
    | negSucc n =>
      rw [upperHex_negSucc] at hText
      have hValue := congrArg hexNumber (List.cons.inj hText).2
      rw [(padLeft_upper _ _).1, (padLeft_upper _ _).1] at hValue
      rw [Nat.succ_inj.mp hValue]

end Lsl.Text
