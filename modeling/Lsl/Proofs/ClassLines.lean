import Lsl.Assembly.Class
import Lsl.Proofs.Numerals
import Lsl.Proofs.Outcomes

/-! The lines of a class. What opens a member starts with a dot, a line of code starts with a letter, and no
line breaks unless a name in it does. So the members of a class can be read off its text. -/
namespace Lsl

open List

variable {s member : String}

namespace Text

/-- A text without a line break. -/
def OneLine (s : String) : Prop := '\n' ∉ s.toList

instance (s : String) : Decidable (OneLine s) := inferInstanceAs (Decidable ('\n' ∉ s.toList))

@[simp]
theorem toString_text (s : String) : toString s = s := rfl

@[simp]
theorem oneLine_append {t : String} : OneLine (s ++ t) ↔ OneLine s ∧ OneLine t := by
  simp [OneLine]

@[simp]
theorem oneLine_ofList {cs : List Char} : OneLine (String.ofList cs) ↔ '\n' ∉ cs := by
  simp [OneLine]

theorem oneLine_intercalate {ss : List String} (h : ∀ s ∈ ss, OneLine s) :
    OneLine (", ".intercalate ss) := by
  induction ss with
  | nil => decide
  | cons s ss ih =>
    obtain ⟨hFirst, hRest⟩ := List.forall_mem_cons.mp h
    cases ss with
    | nil => simpa using hFirst
    | cons t ss => simpa +decide [String.intercalate_cons_cons] using ⟨hFirst, ih hRest⟩

@[simp]
theorem oneLine_nat (n : Nat) : OneLine n.repr := by
  rw [Nat.repr_eq_ofList_toDigits, oneLine_ofList]
  intro hMem
  exact absurd (Nat.isDigit_of_mem_toDigits (by decide) (by decide) hMem) (by decide)

@[simp]
theorem oneLine_int (n : Int) : OneLine n.repr := by
  cases n with
  | ofNat k => exact oneLine_nat k
  | negSucc k => exact oneLine_append.mpr ⟨by decide, oneLine_nat (k + 1)⟩

@[simp]
theorem oneLine_hexPadded (width n : Nat) : OneLine (hexPadded width n) := by
  have hDigit : ∀ d < 16, hexDigit d ≠ '\n' := by decide
  have hDigits : '\n' ∉ (digitsFrom 14 n []).map hexDigit := by
    intro hMem
    obtain ⟨d, hd, hSame⟩ := List.mem_map.mp hMem
    exact hDigit d (digitsFrom_lt (by simp) d hd) hSame
  simpa [hexPadded, padLeft, hex] using hDigits

/-- Between quotes a line break is written as a letter. -/
@[simp]
theorem oneLine_quote (s : String) : OneLine (quote s) := by
  have hEscape : ∀ c, OneLine (escapeChar '"' c) := by
    intro c
    unfold escapeChar
    split
    · next hMark => rcases hMark with rfl | rfl <;> decide
    · split
      · next hPrintable =>
        have hOther : c ≠ '\n' := by
          rintro rfl
          simp [isPrintable] at hPrintable
        simpa [OneLine] using hOther.symm
      · repeat' split
        all_goals simp +decide
  have hInner : OneLine (String.join (s.toList.map (escapeChar '"'))) := by
    simpa [OneLine] using fun c _ => hEscape c
  simpa +decide [quote] using hInner

theorem oneLine_capitalize (h : OneLine s) : OneLine (capitalize s) := by
  unfold capitalize
  split
  · decide
  · next c cs hChars =>
    rw [OneLine, hChars, mem_cons, not_or] at h
    rw [oneLine_ofList, mem_cons, not_or]
    refine ⟨fun hBreak => h.1 ?_, h.2⟩
    unfold Char.toUpper at hBreak
    split at hBreak
    · next hLower =>
      have hVal : (10 : UInt32) = c.val + (65 - 97) := congrArg Char.val hBreak
      have hLow : (97 : UInt32) ≤ c.val := hLower.1
      have hHigh : c.val ≤ (122 : UInt32) := hLower.2
      grind
    · exact hBreak

end Text

open Text (OneLine)

@[simp]
theorem Single.oneLine_literal (x : Single) : OneLine x.literal := by
  have hDigits : '\n' ∉ x.shortestDigits.1 := by
    unfold shortestDigits
    split
    · decide
    · exact Text.oneLine_nat _
  have hPositional : '\n' ∉ positional x.shortestDigits.1 x.shortestDigits.2 := by
    have hTake : ∀ n, '\n' ∉ x.shortestDigits.1.take n := fun n hMem => hDigits (mem_of_mem_take hMem)
    have hDrop : ∀ n, '\n' ∉ x.shortestDigits.1.drop n := fun n hMem => hDigits (mem_of_mem_drop hMem)
    unfold positional
    split
    · simpa using hDigits
    · dsimp only
      split
      · simpa using hTake _
      · simpa using ⟨hTake _, hDrop _⟩
  have hPlain : OneLine x.plain := by
    unfold plain
    split
    · next s hSpecial =>
      unfold special? at hSpecial
      repeat' split at hSpecial
      all_goals cases hSpecial
      all_goals decide
    · have hSign : OneLine x.signText := by
        unfold signText
        split <;> decide
      exact Text.oneLine_append.mpr ⟨hSign, Text.oneLine_ofList.mpr hPositional⟩
  unfold literal
  dsimp only
  split
  · exact hPlain
  · exact Text.oneLine_append.mpr ⟨hPlain, by decide⟩

@[simp]
theorem Ty.oneLine_name (t : Ty) : OneLine t.name := by
  cases t with
  | unknown n => simp +decide [name]
  | _ => decide

@[simp]
theorem EventKind.oneLine_name (k : EventKind) : OneLine k.name := by
  have hSignatures : ∀ s ∈ signatures, OneLine s.1 := by decide
  unfold name
  split
  · next hMem => exact hSignatures _ (mem_of_getElem? hMem)
  · exact Text.oneLine_append.mpr ⟨Text.oneLine_append.mpr ⟨(by decide : OneLine "EventKind("),
      Text.oneLine_nat k.code.toNat⟩, (by decide : OneLine ")")⟩

namespace Assembly

def startsWithLetter (l : String) : Bool := l.toList.head?.any Char.isAlpha

@[simp]
theorem startsWithLetter_append (s t : String) :
    startsWithLetter (s ++ t) = (startsWithLetter s || s.toList.isEmpty && startsWithLetter t) := by
  unfold startsWithLetter
  cases hChars : s.toList <;> simp [hChars]

/-- A line of code: it starts with a letter, and it does not break where the names in it do not. -/
def CodeLine (Names : Prop) (l : String) : Prop := startsWithLetter l = true ∧ (Names → OneLine l)

variable {Names : Prop}

@[simp]
theorem oneLine_typeName (t : Ty) : OneLine (typeName t) := by
  cases t with
  | unknown n => exact not_mem_nil
  | _ => decide

@[simp]
theorem oneLine_signature (ts : List Ty) : OneLine (signature ts) :=
  Text.oneLine_intercalate (by simp)

@[simp]
theorem oneLine_operatorName (op : Operator) : OneLine (operatorName op) := by
  cases op with
  | unknown n => exact not_mem_nil
  | _ => decide

attribute [local simp] runtimeCall loadInt loadFloat loadString labelName

set_option maxRecDepth 2000

mutual

theorem constant_code : ∀ v : Value, ∀ l ∈ constant v, CodeLine Names l
  | .list vs => by simpa +decide [constant, or_imp, forall_and, CodeLine] using constants_code vs
  | .integer _ | .float _ | .string _ | .key _ | .vector .. | .rotation .. | .void | .unknown _ => by
    simp +decide [constant, CodeLine]

theorem constants_code : ∀ vs : List Value, ∀ l ∈ constants vs, CodeLine Names l
  | [] => by simp [constants]
  | v :: vs => by simpa [constants, or_imp, forall_and] using ⟨constant_code v, constants_code vs⟩

end

theorem cast_code (source target : Ty) : ∀ l ∈ cast source target, CodeLine Names l := by
  have hName := Text.oneLine_capitalize target.oneLine_name
  unfold cast
  repeat' split
  all_goals simp +decide [hName, CodeLine]

theorem truth_code (t : Ty) : ∀ l ∈ truth t, CodeLine Names l := by
  unfold truth
  split <;> simp +decide [CodeLine]

theorem unary_code (op : Operator) (t : Ty) : ∀ l ∈ unary op t, CodeLine Names l := by
  unfold unary
  repeat' split
  all_goals simp +decide [CodeLine]

theorem binary_code (op : Operator) (l r : Ty) : ∀ line ∈ binary op l r, CodeLine Names line := by
  unfold binary
  dsimp only
  split
  · cases op <;> simp +decide [numericSequence?, CodeLine]
  · simp +decide [CodeLine]

/-- The names that the lines of an instruction show. -/
def shownNames : Instr → List String
  | .pushLocal _ _ member | .pushGlobal _ _ member => [member]
  | .call target => [target.name]
  | _ => []

variable {f : Frame} {p : Place} {t : Ty} {isGlobal : Bool} {offset : Int32} {ls : List String}

/-- A static field has the name of a global variable. -/
theorem place_static {name : String} (h : f.place isGlobal offset = .ok (.static name, t)) :
    ∃ g ∈ f.globals, g.name = name := by
  unfold Frame.place staticField frameSlot at h
  repeat' split at h
  all_goals cases h
  next g hFound => exact ⟨g, mem_of_find?_eq_some hFound, rfl⟩

/-- The lines that read and write a variable are lines of code. -/
theorem place_code (h : f.place isGlobal offset = .ok (p, t)) (hGlobals : Names → ∀ g ∈ f.globals,
    OneLine g.name) :
    CodeLine Names (load t p) ∧ CodeLine Names (store t p) := by
  cases p with
  | arg i | loc i => simp +decide [CodeLine, load, store]
  | static name =>
    obtain ⟨g, hg, rfl⟩ := place_static h
    have hName := fun hNames => hGlobals hNames g hg
    simpa +decide [CodeLine, load, store, field] using hName

theorem push_code (h : f.push isGlobal offset member = .ok ls)
    (hGlobals : Names → ∀ g ∈ f.globals, OneLine g.name) (hMember : Names → OneLine member) :
    ∀ l ∈ ls, CodeLine Names l := by
  obtain ⟨⟨p, t⟩, hPlace, h⟩ := bind_eq_ok.mp h
  cases h
  refine List.forall_mem_cons.mpr ⟨(place_code hPlace hGlobals).1, ?_⟩
  split
  · simp
  · simpa +decide [CodeLine] using hMember

theorem store_code {keep : Bool} (h : f.store isGlobal offset member keep = .ok ls)
    (hGlobals : Names → ∀ g ∈ f.globals, OneLine g.name) : ∀ l ∈ ls, CodeLine Names l := by
  obtain ⟨⟨p, t⟩, hPlace, h⟩ := bind_eq_ok.mp h
  cases h
  obtain ⟨hLoad, hStore⟩ := place_code hPlace hGlobals
  simp only [List.forall_mem_append, List.forall_mem_singleton]
  refine ⟨⟨?_, ?_⟩, hStore⟩
  · split <;> simp +decide [CodeLine]
  · split
    · simp
    · simpa +decide [CodeLine] using hLoad

/-- The lines of an instruction are lines of code. -/
theorem lines_code {i : Instr} (h : f.lines i = .ok ls) (hGlobals : Names → ∀ g ∈ f.globals,
    OneLine g.name)
    (hShown : Names → ∀ n ∈ shownNames i, OneLine n) : ∀ l ∈ ls, CodeLine Names l := by
  cases i with
  | pushConst v =>
    cases h
    exact constant_code v
  | pushEmpty t =>
    cases h
    exact constant_code (Value.zero t)
  | pushLocal t o m | pushGlobal t o m => exact push_code h hGlobals (by simpa [shownNames] using hShown)
  | store g t o m k => exact store_code h hGlobals
  | unary op t =>
    cases h
    exact unary_code op t
  | binary op l r =>
    cases h
    exact binary_code op l r
  | cast source target =>
    cases h
    exact cast_code source target
  | build t =>
    cases h
    split <;> simp +decide [CodeLine, createVector, createRotation]
  | jumpIf t l | jumpNot t l =>
    cases h
    exact List.forall_mem_append.mpr ⟨truth_code t, by simp +decide [CodeLine]⟩
  | call c =>
    cases h
    have hName : Names → OneLine c.name := by simpa [shownNames] using hShown
    split <;> simpa +decide [CodeLine] using hName
  | unknown n => cases h
  | _ =>
    cases h
    simp +decide [CodeLine]

/-- Lines with their depths, one after the other. -/
def written (ls : List (Nat × String)) : String := String.join (ls.map fun l => line l.1 l.2)

theorem written_append (ls ms : List (Nat × String)) : written (ls ++ ms) = written ls ++ written ms := by
  simp [written]

theorem written_lines (depth : Nat) (ls : List String) : written (ls.map (depth, ·)) = lines depth ls := by
  simp [lines, written, Function.comp_def]

/-- Whether a line opens a member of a class. -/
def opensMember (l : String) : Bool :=
  ".field ".toList.isPrefixOf l.toList || ".method ".toList.isPrefixOf l.toList

/-- The lines of a text that open a member, without the blanks before them. -/
def memberLines (text : String) : List String :=
  ((text.toList.splitOn '\n').map fun l => String.ofList (l.dropWhile (· == ' '))).filter opensMember

/-- Lines of which those that open a member are the given ones. None of them starts with a blank, and none
breaks where the names in it do not. -/
structure Opening (Names : Prop) (ls : List (Nat × String)) (heads : List String) : Prop where
  heads : (ls.map Prod.snd).filter opensMember = heads
  flush : ∀ l ∈ ls, l.2.toList.head? ≠ some ' '
  oneLine : Names → ∀ l ∈ ls, OneLine l.2

namespace Opening

variable {ls ms : List (Nat × String)} {heads others : List String} {depth : Nat} {l : String}

theorem nil : Opening Names [] [] := ⟨rfl, by simp, by simp⟩

theorem append (h : Opening Names ls heads) (hms : Opening Names ms others) :
    Opening Names (ls ++ ms) (heads ++ others) := by
  refine ⟨by simp [h.heads, hms.heads], List.forall_mem_append.mpr ⟨h.flush, hms.flush⟩, fun hNames =>
    ?_⟩
  exact List.forall_mem_append.mpr ⟨h.oneLine hNames, hms.oneLine hNames⟩

/-- A line that opens no member. -/
theorem inner (hInner : opensMember l = false ∧ l.toList.head? ≠ some ' ') (hLine : Names → OneLine l) :
    Opening Names [(depth, l)] [] :=
  ⟨by simp [hInner.1], by simpa using hInner.2, by simpa using hLine⟩

theorem head (hOpens : opensMember l = true) (hLine : Names → OneLine l) : Opening Names [(depth, l)]
    [l] := by
  refine ⟨by simp [hOpens], ?_, by simpa using hLine⟩
  simp only [opensMember, Bool.or_eq_true, isPrefixOf_iff_prefix] at hOpens
  obtain ⟨rest, hRest⟩ | ⟨rest, hRest⟩ := hOpens <;> simp [← hRest]

theorem code {body : List String} (h : ∀ l ∈ body, CodeLine Names l) :
    Opening Names (body.map (depth, ·)) [] := by
  induction body with
  | nil => exact nil
  | cons l body ih =>
    obtain ⟨⟨hLetter, hLine⟩, hRest⟩ := List.forall_mem_cons.mp h
    refine (inner ?_ hLine).append (ih hRest)
    unfold startsWithLetter at hLetter
    cases hChars : l.toList with
    | nil => simp [hChars] at hLetter
    | cons c cs =>
      have hOther : c ≠ '.' ∧ c ≠ ' ' := by
        constructor <;> rintro rfl <;> simp +decide [hChars] at hLetter
      simp [opensMember, hChars, List.isPrefixOf, hOther.1.symm, hOther.2]

/-- Between line breaks stand the lines as they were written. -/
theorem memberLines (h : Opening Names ls heads) (hNames : Names) :
    Assembly.memberLines (written ls) = heads := by
  have hSplit : ((written ls).toList.splitOn '\n').map (fun l => String.ofList (l.dropWhile (· == ' '))) =
      ls.map Prod.snd ++ [""] := by
    have hLines := h.oneLine hNames
    have hFlush := h.flush
    clear h
    induction ls with
    | nil => rfl
    | cons l ls ih =>
      obtain ⟨hLine, hLines⟩ := List.forall_mem_cons.mp hLines
      obtain ⟨hFirst, hFlush⟩ := List.forall_mem_cons.mp hFlush
      obtain ⟨blanks, hBlanks, hText⟩ : ∃ blanks, (∀ c ∈ blanks, c = ' ') ∧
          (line l.1 l.2).toList = blanks ++ l.2.toList ++ ['\n'] := by
        unfold line
        split
        · next hEmpty => exact ⟨[], by simp, by rw [hEmpty]; rfl⟩
        · exact ⟨List.replicate (4 * l.1) ' ', by simp, by simp⟩
      have hBreak : '\n' ∉ blanks ++ l.2.toList := by
        intro hMem
        rcases List.mem_append.mp hMem with hMem | hMem
        · exact absurd (hBlanks _ hMem) (by decide)
        · exact hLine hMem
      have hStrip : (blanks ++ l.2.toList).dropWhile (· == ' ') = l.2.toList := by
        rw [dropWhile_append_of_pos fun c hc => by simpa using hBlanks c hc]
        cases hChars : l.2.toList with
        | nil => rfl
        | cons c cs => exact dropWhile_cons_of_neg (by simpa [hChars] using hFirst)
      have hWritten : (written (l :: ls)).toList = (blanks ++ l.2.toList) ++ '\n' :: (written ls).toList := by
        simp [written, hText]
      rw [hWritten, splitOn_append_cons_self_of_not_mem hBreak, map_cons, hStrip, ih hLines hFlush]
      simp
  rw [Assembly.memberLines, hSplit, filter_append, h.heads]
  exact append_nil _

end Opening

/-- The names that the lines of a body show. -/
def bodyNames (b : Body) : List String :=
  (b.params ++ b.locals).map (·.name) ++ b.code.flatMap shownNames

/-- The names that the lines of a class show. -/
def classNames (p : Program) : List String :=
  p.globals.map (·.name) ++ p.functions.flatMap (fun f => f.name :: bodyNames f.body) ++
    p.states.flatMap fun s => s.name :: s.events.flatMap fun h => bodyNames h.body

/-- No name in the class of a program breaks a line. -/
def Plain (p : Program) : Prop := ∀ n ∈ classNames p, OneLine n

instance (p : Program) : Decidable (Plain p) :=
    inferInstanceAs (Decidable (∀ n ∈ classNames p, OneLine n))

end Assembly
end Lsl
