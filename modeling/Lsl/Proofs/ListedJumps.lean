import Lsl.Image.Listing
import Lsl.Proofs.LosslessDecoding
import Lsl.Proofs.Numerals
import Mathlib.Data.List.DropRight
import Mathlib.Data.List.Infix

/-! The addresses in a listing. The line of an instruction starts with its place in the image that holds the
code, while a jump shows the place that it leads to as it is counted within the code. So the two agree only
where the code stands at the very beginning. -/
namespace Lsl

open List

namespace Instruction

def line (base : Int) (i : Instruction) : String :=
  Text.upperHex 4 (base + i.offset) ++ "  " ++ i.text ++ "\n"

def lineAddress (line : String) : String := String.ofList (line.toList.takeWhile (· != ' '))

def lineTarget (line : String) : String := String.ofList (line.toList.dropLast.rtakeWhile (· != ' '))

/-- The line behind the instructions of code that cannot be decoded from the place `stop` on. -/
def stopLine (base : Int) (stop : Nat) (e : Truncation) : String :=
  Text.upperHex 4 (base + stop) ++ "  <" ++ e.message ++ ">\n"

theorem Cover.foldl_length {start stop : Nat} {is : List Instruction} (h : Cover start stop is) :
    is.foldl (fun n i => n + i.length) start = stop := by
  induction is generalizing start with
  | nil => exact h
  | cons i is ih => exact ih h.2

/-- A listing has a line for each instruction that is decoded. Where these do not take up all of the code,
it ends in the line that says why the next one cannot be decoded. -/
theorem listing_lines (code : Bytes) (base : Int) : ∃ stop ≤ code.length,
    Cover 0 stop (decodeAll code).1 ∧
    ((decodeAll code).2 = none ∧ stop = code.length ∧
        listing code base = String.join ((decodeAll code).1.map (line base)) ∨
      ∃ e, (decodeAll code).2 = some e ∧ stop < code.length ∧ decodeAt code stop = .error e ∧
        listing code base = String.join ((decodeAll code).1.map (line base)) ++ stopLine base stop e) := by
  have hReads : Reads code 0 (decodeAll code).1 (decodeAll code).2 := decodeFrom_reads (by omega)
  obtain ⟨stop, hStop, hCover, -, -, hEnd⟩ := hReads.covers (Nat.zero_le _)
  have hNext := hCover.foldl_length
  refine ⟨stop, hStop, hCover, ?_⟩
  unfold listing
  cases hDecode : decodeAll code with
  | mk is e =>
    rw [hDecode] at hEnd hNext
    rcases hEnd with ⟨hNone, hLength⟩ | ⟨t, hSome, hMore, hCut⟩
    · cases hNone
      exact .inl ⟨rfl, hLength, String.append_empty⟩
    · cases hSome
      exact .inr ⟨t, rfl, hMore, hCut, by rw [← hNext]; rfl⟩

theorem upperHex_solid {n : Int} : ∀ c ∈ (Text.upperHex 4 n).toList, (c != ' ') = true := by
  intro c hc
  refine bne_iff_ne.mpr ?_
  rintro rfl
  exact absurd (Text.mem_upperHex hc) (by decide)

theorem lineAddress_line (base : Int) (i : Instruction) :
    lineAddress (line base i) = Text.upperHex 4 (base + i.offset) := by
  simp [lineAddress, line, takeWhile_append_of_pos upperHex_solid]

theorem lineTarget_append (front : String) (n : Int) :
    lineTarget (front ++ " -> " ++ Text.upperHex 4 n ++ "\n") = Text.upperHex 4 n := by
  have hSolid : ∀ c ∈ (Text.upperHex 4 n).toList.reverse, (c != ' ') = true :=
    fun c hc => upperHex_solid c (List.mem_reverse.mp hc)
  have hLine : (front ++ " -> " ++ Text.upperHex 4 n ++ "\n").toList =
      front.toList ++ " -> ".toList ++ (Text.upperHex 4 n).toList ++ ['\n'] := by
    simp
  rw [lineTarget, hLine, dropLast_concat, List.rtakeWhile, reverse_append,
    takeWhile_append_of_pos hSolid]
  simp

/-- The text of a jump ends in the place that it leads to, counted within the code. -/
theorem text_of_isJump {i : Instruction} (hJump : i.op.isJump = true)
    (hFits : i.operand.Fits i.op.operandKind) :
    ∃ front, i.text = front ++ " -> " ++ Text.upperHex 4 i.target := by
  obtain ⟨offset, op, x⟩ := i
  have hKind : op = .jump ∧ op.operandKind = .int ∨ op.operandKind = .typeJump := by
    obtain rfl | rfl | rfl := Opcode.eq_of_isJump hJump <;> decide +kernel
  rcases hKind with ⟨rfl, hInt⟩ | hTyped
  · rw [hInt] at hFits
    cases hFits with
    | int n =>
      refine ⟨Text.padRight 16 (Opcode.name .jump) ++ " " ++ Text.signed n.toInt, ?_⟩
      simp [text, operandText, String.append_assoc]
  · rw [hTyped] at hFits
    cases hFits with
    | typedJump b n =>
      refine ⟨Text.padRight 16 op.name ++ " " ++ ((Ty.ofPair b).1.name ++ " " ++ Text.signed n.toInt), ?_⟩
      simp [text, operandText, String.append_assoc]

theorem line_of_isJump {i : Instruction} (base : Int) (hJump : i.op.isJump = true)
    (hFits : i.operand.Fits i.op.operandKind) : lineTarget (line base i) = Text.upperHex 4 i.target ∧
      ∃ front, line base i = front ++ " -> " ++ lineTarget (line base i) ++ "\n" := by
  obtain ⟨front, hText⟩ := text_of_isJump hJump hFits
  have hLine : line base i = (Text.upperHex 4 (base + i.offset) ++ "  " ++ front) ++ " -> " ++
      Text.upperHex 4 i.target ++ "\n" := by
    simp [line, hText, String.append_assoc]
  have hTarget : lineTarget (line base i) = Text.upperHex 4 i.target := by rw [hLine, lineTarget_append]
  exact ⟨hTarget, _, hTarget ▸ hLine⟩

theorem decodeAll_fits (code : Bytes) : ∀ i ∈ (decodeAll code).1, i.operand.Fits i.op.operandKind := by
  have hReads : Reads code 0 (decodeAll code).1 (decodeAll code).2 := decodeFrom_reads (by omega)
  obtain ⟨_, _, _, hFits, _⟩ := hReads.covers (Nat.zero_le _)
  exact hFits

end Instruction

namespace Image

open Instruction

/-- The codes of the functions and handlers of an image, with the places where they start. -/
def codes (img : Image) : List (Bytes × Int) :=
  img.functions.map (fun f => (f.code, f.codeStart)) ++
    img.states.flatMap fun s => s.handlers.map fun h => (h.code, h.codeStart)

theorem lies_in_flatMap {α : Type} {f : α → Bytes} {as : List α} {a : α} (h : a ∈ as) : f a <:+:
    as.flatMap f :=
  infix_of_mem_flatten (mem_map_of_mem h)

/-- The listing of an image holds the listing of each of its codes. -/
theorem listing_holds {img : Image} {code : Bytes} {base : Int} (h : (code, base) ∈ img.codes) :
    Text.bytes (Instruction.listing code base) <:+: img.listing := by
  have hParts : img.functions.flatMap functionLines <:+: img.listing ∧
      img.states.flatMap stateLines <:+: img.listing := by
    refine ⟨?_, infix_append _ _ _⟩
    rw [listing, append_assoc _ (img.states.flatMap stateLines)]
    exact infix_append _ _ _
  simp only [codes, mem_append, mem_map, mem_flatMap, Prod.mk.injEq] at h
  rcases h with ⟨f, hf, rfl, rfl⟩ | ⟨s, hs, k, hk, rfl, rfl⟩
  · have hLines : Text.bytes (Instruction.listing f.code f.codeStart) <:+: functionLines f :=
      (suffix_append _ _).isInfix
    exact (hLines.trans (lies_in_flatMap hf)).trans hParts.1
  · have hLines : Text.bytes (Instruction.listing k.code k.codeStart) <:+: handlerLines k :=
      (suffix_append _ _).isInfix
    have hHandlers : s.handlers.flatMap handlerLines <:+: stateLines s := (suffix_append _ _).isInfix
    exact ((hLines.trans (lies_in_flatMap hk)).trans (hHandlers.trans (lies_in_flatMap hs))).trans hParts.2

/-- A listing has a line for each decoded instruction, and one more that names the error if decoding stops
before the end. The lines start with the places of their instructions from `base` on, and a jump shows the
place that it leads to without `base`. So where a jump leads to an instruction of the code, it shows the
address of its line exactly if `base` is zero; and that is how every code of an image is listed, from its
start on. -/
theorem listing_jumps (code : Bytes) (base : Int) :
    (∃ stop ≤ code.length, Cover 0 stop (decodeAll code).1 ∧
      ((decodeAll code).2 = none ∧ stop = code.length ∧
          Instruction.listing code base = String.join ((decodeAll code).1.map (line base)) ∨
        ∃ e, (decodeAll code).2 = some e ∧ stop < code.length ∧ decodeAt code stop = .error e ∧
          Instruction.listing code base =
            String.join ((decodeAll code).1.map (line base)) ++ stopLine base stop e)) ∧
    (∀ i ∈ (decodeAll code).1, lineAddress (line base i) = Text.upperHex 4 (base + i.offset)) ∧
    (∀ i ∈ (decodeAll code).1, i.op.isJump = true →
      lineTarget (line base i) = Text.upperHex 4 i.target ∧
      (∃ front, line base i = front ++ " -> " ++ lineTarget (line base i) ++ "\n") ∧
      ∀ j ∈ (decodeAll code).1, i.target = j.offset →
        (lineTarget (line base i) = lineAddress (line base j) ↔ base = 0)) ∧
    ∀ img : Image, (code, base) ∈ img.codes → Text.bytes (Instruction.listing code base) <:+:
      img.listing := by
  refine ⟨listing_lines code base, fun i _ => lineAddress_line base i, fun i hi hJump => ?_,
    fun img => listing_holds⟩
  obtain ⟨hTarget, hLine⟩ := line_of_isJump base hJump (decodeAll_fits code i hi)
  refine ⟨hTarget, hLine, fun j _ hLeads => ?_⟩
  rw [hTarget, lineAddress_line, Text.upperHex_inj, hLeads]
  omega

def shortJump : Bytes := [0x90, 0, 0, 0, 0, 0x95]

theorem decodeAll_shortJump : decodeAll shortJump = ([⟨0, .jump, .int 0⟩, ⟨5, .ret, .none⟩], none) :=
  rfl

theorem listing_jumps_short :
    let img : Image := ⟨{}, [], [⟨[], .void, [], 0, 16, shortJump⟩], [], []⟩
    (shortJump, 16) ∈ img.codes ∧ Text.bytes (Instruction.listing shortJump 16) <:+: img.listing ∧
      (⟨0, .jump, .int 0⟩ : Instruction) ∈ (decodeAll shortJump).1 ∧
      lineTarget (line 16 ⟨0, .jump, .int 0⟩) ≠ lineAddress (line 16 ⟨5, .ret, .none⟩) := by
  obtain ⟨-, -, hJumps, hImages⟩ := listing_jumps shortJump 16
  refine ⟨by decide, hImages _ (by decide), by simp [decodeAll_shortJump], ?_⟩
  rw [decodeAll_shortJump] at hJumps
  obtain ⟨-, -, hLines⟩ := hJumps ⟨0, .jump, .int 0⟩ (by simp) (by decide)
  have hAgree := hLines ⟨5, .ret, .none⟩ (by simp) (by decide)
  exact fun h => absurd (hAgree.mp h) (by decide)

/-- A jump in code that is listed from 16 on shows the address 5, and the line that it leads to has 21. -/
theorem listing_shortJump : Instruction.listing shortJump 16 =
      "0010  JUMP             +0 -> 0005\n0015  RETURN\n" ∧
    ∃ i ∈ (decodeAll shortJump).1, ∃ j ∈ (decodeAll shortJump).1, i.op.isJump = true ∧
      i.target = j.offset ∧
      lineTarget (line 16 i) = "0005" ∧ lineAddress (line 16 j) = "0015" := by
  refine ⟨by decide +kernel, ⟨0, .jump, .int 0⟩, by simp [decodeAll_shortJump], ⟨5, .ret, .none⟩,
    by simp [decodeAll_shortJump], by decide, by decide, by decide +kernel, by decide +kernel⟩

end Image

end Lsl
