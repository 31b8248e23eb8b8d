import Lsl.Proofs.Numerals
import Lsl.Proofs.Trees
import Lsl.Script.Source

/-! The source text of operator expressions. A reader takes each of them back from its text, whatever follows
it in a list, but for one thing: nothing parts the signs of operators, so that a minus before the minus of a
variable reads as a decrement. Two expressions have one text only if they are the same apart from that. -/
namespace Lsl

open List

namespace Text

def escapeWidth : Char → Nat
  | 'x' => 2
  | 'u' => 4
  | 'U' => 8
  | _ => 0

def escaped (letter : Char) (digits : List Char) : Char :=
  match letter with
  | 'x' | 'u' | 'U' => Char.ofNat (hexNumber digits)
  | 'a' => Char.ofNat 7
  | 'b' => Char.ofNat 8
  | 'f' => Char.ofNat 12
  | 'n' => '\n'
  | 'r' => '\r'
  | 't' => '\t'
  | 'v' => Char.ofNat 11
  | c => c

/-- The text up to the next quote that is not escaped, and what follows that quote. -/
def unquote : List Char → List Char × List Char
  | [] => ([], [])
  | '\\' :: letter :: cs =>
    let more := unquote (cs.drop (escapeWidth letter))
    (escaped letter (cs.take (escapeWidth letter)) :: more.1, more.2)
  | c :: cs => if c = '"' then ([], cs) else (c :: (unquote cs).1, (unquote cs).2)
termination_by cs => cs.length
decreasing_by
  all_goals simp_wf
  omega

/-- A character is read back from its escape. -/
theorem unquote_escapeChar (c : Char) (cs : List Char) :
    unquote ((escapeChar '"' c).toList ++ cs) = (c :: (unquote cs).1, (unquote cs).2) := by
  have hEscape : ∀ (letter : Char) (digits : List Char), digits.length = escapeWidth letter →
      escaped letter digits = Char.ofNat c.toNat →
      unquote ('\\' :: letter :: (digits ++ cs)) = (c :: (unquote cs).1, (unquote cs).2) := by
    intro letter digits hLength hEscaped
    rw [unquote, drop_left' hLength, take_left' hLength, hEscaped, Char.ofNat_toNat]
  unfold escapeChar
  split
  · next hMark =>
    rcases hMark with rfl | rfl
    · exact hEscape '"' [] rfl rfl
    · exact hEscape '\\' [] rfl rfl
  · next hPlain =>
    obtain ⟨hQuote, hBackslash⟩ := not_or.mp hPlain
    split
    · have hSelf : unquote (c :: cs) = (c :: (unquote cs).1, (unquote cs).2) := by
        rw [unquote, if_neg hQuote]
        exact fun _ _ hc _ => hBackslash hc
      simpa using hSelf
    · split
      · next h => simpa using hEscape 'a' [] rfl (by rw [h]; rfl)
      · next h => simpa using hEscape 'b' [] rfl (by rw [h]; rfl)
      · next h => simpa using hEscape 'f' [] rfl (by rw [h]; rfl)
      · next h => simpa using hEscape 'n' [] rfl (by rw [h]; rfl)
      · next h => simpa using hEscape 'r' [] rfl (by rw [h]; rfl)
      · next h => simpa using hEscape 't' [] rfl (by rw [h]; rfl)
      · next h => simpa using hEscape 'v' [] rfl (by rw [h]; rfl)
      · have hRange : c.toNat < 16 ^ 8 := c.val.toNat_lt
        split
        · simpa using hEscape 'x' _ (length_hexPadded (by omega)) (by rw [escaped, hexNumber_hexPadded])
        · split
          · simpa using hEscape 'u' _ (length_hexPadded (by omega)) (by rw [escaped, hexNumber_hexPadded])
          · simpa using hEscape 'U' _ (length_hexPadded hRange) (by rw [escaped, hexNumber_hexPadded])

theorem unquote_quote (s : String) (cs : List Char) :
    ∃ body, (quote s).toList ++ cs = '"' :: body ∧ unquote body = (s.toList, cs) := by
  refine ⟨(s.toList.flatMap fun c => (escapeChar '"' c).toList) ++ '"' :: cs,
    by simp [quote, flatMap_map], ?_⟩
  induction s.toList with
  | nil => simp [unquote]
  | cons c s ih => rw [flatMap_cons, append_assoc, unquote_escapeChar, ih]

def isWordChar (c : Char) : Bool := c.isAlphanum || c == '_'

/-- Letters, digits and underscores, of which the first is no digit. -/
def IsWord (s : String) : Prop := s.toList.all isWordChar = true ∧ (s.toList.headD '0').isDigit = false

theorem IsWord.ne_empty {s : String} (h : IsWord s) : s ≠ "" := by
  rintro rfl
  cases h.2

end Text

open Text (isWordChar IsWord)

structure Ident.Ordinary (v : Ident) : Prop where
  name : IsWord v.name
  member : v.member = "" ∨ IsWord v.member

namespace Expr

/-- Expressions of literals, variables and calls, operators of one operand, casts, brackets and lists. -/
inductive Operational : Expr → Prop where
  | int (p : Pos) {n : Int32} (t : Ty) (h : 0 ≤ n.toInt) : Operational (int p n t)
  | string (p : Pos) (s : String) (t : Ty) : Operational (string p s t)
  | ident {v : Ident} (h : v.Ordinary) : Operational (ident v)
  | incDec (p : Pos) (d before : Bool) {v : Ident} (t : Ty) (h : v.Ordinary) :
      Operational (incDec p d before (some v) t)
  | unary (p : Pos) {op : Operator} {x : Expr} (t : Ty) (hOp : op ∈ Operator.unaries) (h : Operational x) :
      Operational (unary p op x t)
  | cast (p : Pos) {target : Ty} {x : Expr} (t : Ty) (hTarget : target ∈ Ty.known) (h : Operational x) :
      Operational (cast p target x t)
  | paren (p : Pos) {x : Expr} (t : Ty) (h : Operational x) : Operational (paren p x t)
  | print (p : Pos) {x : Expr} (t : Ty) (h : Operational x) : Operational (print p x t)
  | list (p : Pos) {es : List Expr} (t : Ty) (h : ∀ e ∈ es, Operational e) : Operational (list p es t)
  | call (p : Pos) {name : String} {args : List Expr} (c : Option Symbol) (t : Ty) (hWord : IsWord name)
      (hPrint : name ≠ "print") (h : ∀ e ∈ args, Operational e) : Operational (call p name args c t)

def bareIdent (v : Ident) : Ident := ⟨{}, v.name, v.member, none, .void⟩

mutual

/-- The tree without positions and notes, in which `negate` puts a minus before its operand. -/
def stripped (negate : Expr → Expr) : Expr → Expr
  | missing => missing
  | int _ n _ => int {} n .void
  | float _ x _ => float {} x .void
  | string _ s _ => string {} s .void
  | vector _ x y z _ => vector {} (x.stripped negate) (y.stripped negate) (z.stripped negate) .void
  | rotation _ x y z s _ =>
    rotation {} (x.stripped negate) (y.stripped negate) (z.stripped negate) (s.stripped negate) .void
  | list _ es _ => list {} (strippedAll negate es) .void
  | ident v => ident (bareIdent v)
  | unary _ .neg x _ => negate (x.stripped negate)
  | unary _ op x _ => unary {} op (x.stripped negate) .void
  | binary _ op l r _ _ _ => binary {} op (l.stripped negate) (r.stripped negate) .void .void .void
  | assign _ op v x _ _ _ => assign {} op (v.map bareIdent) (x.stripped negate) .void .void .void
  | incDec _ d before v _ => incDec {} d before (v.map bareIdent) .void
  | cast _ target x _ => cast {} target (x.stripped negate) .void
  | call _ name args _ _ => call {} name (strippedAll negate args) none .void
  | paren _ x _ => paren {} (x.stripped negate) .void
  | print _ x _ => print {} (x.stripped negate) .void

def strippedAll (negate : Expr → Expr) : List Expr → List Expr
  | [] => []
  | e :: es => e.stripped negate :: strippedAll negate es

end

attribute [local simp] source sources stripped strippedAll

def minus (x : Expr) : Expr := unary {} .neg x .void

/-- A minus as it reads: before the minus of a variable it makes a decrement. -/
def joinMinus : Expr → Expr
  | unary _ .neg (ident v) _ => incDec {} true true (some v) .void
  | x => minus x

def increment : Expr → Expr
  | ident v => incDec {} false true (some v) .void
  | x => x

/-- The tree up to positions and notes. -/
def bare (e : Expr) : Expr := e.stripped minus

/-- The tree up to positions and notes, with decrements for pairs of minus signs before variables. -/
def joined (e : Expr) : Expr := e.stripped joinMinus

/-- What stands at the front of a text: a whole expression, a sign before its operand, or what comes before a
list of expressions in brackets. -/
inductive Lead where
  | leaf (x : Expr) (rest : List Char)
  | operator (build : Expr → Expr) (rest : List Char)
  | bracket (build : List Expr → Expr) (rest : List Char)

def splitWord (cs : List Char) : String × List Char :=
  (String.ofList (cs.takeWhile isWordChar), cs.dropWhile isWordChar)

def splitMember (name : String) : List Char → Ident × List Char
  | '.' :: cs => (⟨{}, name, (splitWord cs).1, none, .void⟩, (splitWord cs).2)
  | cs => (⟨{}, name, "", none, .void⟩, cs)

def callOf (name : String) (es : List Expr) : Expr :=
  if name = "print" then print {} (es.headD .missing) .void else call {} name es none .void

def leadIdent (v : Ident) : List Char → Lead
  | '+' :: '+' :: cs => .leaf (incDec {} false false (some v) .void) cs
  | '-' :: '-' :: cs => .leaf (incDec {} true false (some v) .void) cs
  | '(' :: cs => .bracket (callOf v.name) cs
  | cs => .leaf (ident v) cs

def leadWord (word : String) (cs : List Char) : Lead :=
  if (word.toList.headD '0').isDigit then .leaf (int {} (Int32.ofInt (Nat.ofDigitChars 10 word.toList 0))
    .void) cs
  else leadIdent (splitMember word cs).1 (splitMember word cs).2

def leadMark : List Char → Option Lead
  | '-' :: cs => some (.operator joinMinus cs)
  | '~' :: cs => some (.operator (unary {} .bitNot · .void) cs)
  | '!' :: cs => some (.operator (unary {} .boolNot · .void) cs)
  | '+' :: '+' :: cs => some (.operator increment cs)
  | '"' :: cs => some (.leaf (string {} (String.ofList (Text.unquote cs).1) .void) (Text.unquote cs).2)
  | '[' :: cs => some (.bracket (list {} · .void) cs)
  | '(' :: cs => some (.bracket (fun es => paren {} (es.headD .missing) .void) cs)
  | _ => none

def lead (cs : List Char) : Option Lead :=
  if (splitWord cs).1 = "" then leadMark cs else some (leadWord (splitWord cs).1 (splitWord cs).2)

def ends : List Char := [',', ')', ']']

def Ends (cs : List Char) : Prop := cs.headD ',' ∈ ends

instance : DecidablePred Ends := fun _ => inferInstanceAs (Decidable (_ ∈ _))

def castTo : List Expr → Expr → Expr
  | [ident v], x => cast {} ((Ty.ofName? v.name).getD .void) x .void
  | _, x => x

mutual

/-- Reads an expression from the front of a text, down to a depth. A bracket with an operand behind it is a
cast. -/
def read : Nat → List Char → Option (Expr × List Char)
  | 0, _ => none
  | n + 1, cs => do
    match ← lead cs with
    | .leaf x rest => return (x, rest)
    | .operator build rest =>
      let (x, more) ← read n rest
      return (build x, more)
    | .bracket build rest =>
      let (es, more) ← readAll n rest
      if Ends more then return (build es, more)
      let (x, more) ← read n more
      return (castTo es x, more)

def readAll : Nat → List Char → Option (List Expr × List Char)
  | 0, _ => none
  | n + 1, cs => do
    if Ends cs then return ([], cs.tail)
    let (x, rest) ← read n cs
    match rest with
    | ',' :: _ :: rest =>
      let (es, more) ← readAll n rest
      return (x :: es, more)
    | rest => return ([x], rest.tail)

end

variable {cs rest front : List Char} {word : String} {v : Ident} {e x : Expr} {es : List Expr} {c : Char}

theorem Ends.cases (h : Ends cs) :
    cs = [] ∨ (∃ rest, cs = ',' :: rest) ∨ (∃ rest, cs = ')' :: rest) ∨ ∃ rest, cs = ']' ::
      rest := by
  cases cs <;> simp_all [Ends, ends]

theorem read_of_ends (n : Nat) (h : Ends cs) : read n cs = none := by
  cases n with
  | zero => rfl
  | succ n => obtain rfl | ⟨_, rfl⟩ | ⟨_, rfl⟩ | ⟨_, rfl⟩ := h.cases <;> rfl

def follows : List Char := ends ++ ['+', '-', '(']

theorem of_mem_follows : ∀ c ∈ follows, isWordChar c = false ∧ c ≠ '.' := by
  simp [follows, ends, isWordChar]

theorem Ends.follows (h : Ends cs) : cs.headD ',' ∈ Expr.follows := mem_append_left _ h

theorem splitWord_append (hWord : word.toList.all isWordChar = true)
    (hRest : isWordChar (rest.headD ',') = false) :
    splitWord (word.toList ++ rest) = (word, rest) := by
  have hAll := List.all_eq_true.mp hWord
  have hStop : rest.takeWhile isWordChar = [] ∧ rest.dropWhile isWordChar = rest := by
    cases rest with
    | nil => exact ⟨rfl, rfl⟩
    | cons c rest => simp_all
  rw [splitWord, takeWhile_append_of_pos hAll, dropWhile_append_of_pos hAll, hStop.1, hStop.2,
    append_nil, String.ofList_toList]

theorem lead_word (hEmpty : word ≠ "") (hWord : word.toList.all isWordChar = true)
    (hRest : isWordChar (rest.headD ',') = false) : lead (word.toList ++ rest) = some
      (leadWord word rest) := by
  rw [lead, splitWord_append hWord hRest, if_neg hEmpty]

theorem splitMember_none (h : cs.headD ',' ∈ follows) : splitMember word cs =
    (⟨{}, word, "", none, .void⟩, cs) := by
  rw [splitMember]
  rintro cs rfl
  exact (of_mem_follows _ h).2 rfl

theorem lead_ident (hv : v.Ordinary) (hRest : rest.headD ',' ∈ follows) :
    lead (v.source.toList ++ rest) = some (leadIdent (bareIdent v) rest) := by
  have hStop := (of_mem_follows _ hRest).1
  by_cases hMember : v.member = ""
  · have hText : v.source = v.name := by simp [Ident.source, hMember]
    rw [hText, lead_word hv.name.ne_empty hv.name.1 hStop, leadWord, hv.name.2, splitMember_none hRest,
      bareIdent, hMember]
    rfl
  · have hText : v.source.toList ++ rest = v.name.toList ++ '.' :: (v.member.toList ++ rest) := by
      simp [Ident.source, hMember]
    rw [hText, lead_word hv.name.ne_empty hv.name.1 rfl, leadWord, hv.name.2, splitMember,
      splitWord_append (hv.member.resolve_left hMember).1 hStop]
    rfl

theorem lead_call (hWord : IsWord word) (cs : List Char) :
    lead (word.toList ++ ['('] ++ cs) = some (.bracket (callOf word) cs) := by
  rw [append_assoc]
  exact @lead_ident ('(' :: cs) ⟨{}, word, "", none, .void⟩ ⟨hWord, .inl rfl⟩ (by simp [follows])

theorem leadIdent_ends (v : Ident) (hRest : Ends rest) : leadIdent v rest = .leaf (ident v) rest := by
  obtain rfl | ⟨_, rfl⟩ | ⟨_, rfl⟩ | ⟨_, rfl⟩ := hRest.cases <;> rfl

/-- The digits of a number that is not negative form a word. -/
theorem lead_digits {n : Int32} (hn : 0 ≤ n.toInt) (hRest : Ends rest) :
    lead ((toString n.toInt).toList ++ rest) = some (.leaf (int {} n .void) rest) := by
  obtain ⟨k, hk⟩ := Int.eq_ofNat_of_zero_le hn
  have hText : toString n.toInt = String.ofList (Nat.toDigits 10 k) := by
    rw [hk]
    exact Nat.repr_eq_ofList_toDigits
  have hDigits : ∀ c ∈ Nat.toDigits 10 k, c.isDigit = true :=
    fun c hc => Nat.isDigit_of_mem_toDigits (by decide) (by decide) hc
  have hWord : (Nat.toDigits 10 k).all isWordChar = true :=
    List.all_eq_true.mpr fun c hc => by simp [isWordChar, Char.isAlphanum, hDigits c hc]
  obtain ⟨c, cs, hCons⟩ := exists_cons_of_ne_nil (ne_nil_of_length_pos (@Nat.length_toDigits_pos 10 k))
  rw [hText, lead_word (by simp) (by simpa using hWord) (of_mem_follows _ hRest.follows).1, leadWord, if_pos,
    String.toList_ofList, Nat.ofDigitChars_ten_toDigits, ← hk, Int32.ofInt_toInt]
  simpa [hCons] using hDigits c (by simp [hCons])

def itemText (es : List Expr) : List Char := (", ".intercalate (sources es)).toList

/-- The reader takes an expression from the front of its text, from some depth on. -/
def Readable (e : Expr) : Prop :=
  ∃ n, ∀ k rest, Ends rest → read (n + k) (e.source.toList ++ rest) = some (e.joined, rest)

theorem Readable.starts (h : e.Readable) (hRest : Ends rest) : ¬ Ends (e.source.toList ++ rest) := by
  intro hEnds
  obtain ⟨n, h⟩ := h
  have hRead := h 0 rest hRest
  rw [read_of_ends _ hEnds] at hRead
  cases hRead

theorem readAll_items (hes : ∀ e ∈ es, e.Readable) (hc : c ∈ [')', ']']) :
    ∃ n, ∀ k rest, readAll (n + k) (itemText es ++ c :: rest) = some (strippedAll joinMinus es, rest) :=
      by
  have hEnds : ∀ rest, Ends (c :: rest) := fun _ => mem_cons_of_mem _ hc
  have hComma : c ≠ ',' := by
    rintro rfl
    revert hc
    decide
  induction es with
  | nil =>
    refine ⟨1, fun k rest => ?_⟩
    rw [Nat.add_comm, readAll]
    exact if_pos (hEnds rest)
  | cons e es ih =>
    obtain ⟨hFirst, hOthers⟩ := List.forall_mem_cons.mp hes
    have hStart := @hFirst.starts
    obtain ⟨n, hRead⟩ := hFirst
    cases es with
    | nil =>
      have hText : itemText [e] = e.source.toList := by simp [itemText]
      refine ⟨n + 1, fun k rest => ?_⟩
      rw [hText, Nat.add_right_comm, readAll, if_neg (hStart _ (hEnds rest)), hRead k _ (hEnds rest)]
      simp [hComma, joined]
    | cons e' es =>
      obtain ⟨m, ih⟩ := ih hOthers
      refine ⟨n + m + 1, fun k rest => ?_⟩
      have hText : itemText (e :: e' :: es) ++ c :: rest =
          e.source.toList ++ ',' :: ' ' :: (itemText (e' :: es) ++ c :: rest) := by
        simp [itemText, String.intercalate_cons_cons]
      have hMark : Ends (',' :: ' ' :: (itemText (e' :: es) ++ c :: rest)) := mem_cons_self
      have hMore := ih (n + k) rest
      rw [Nat.add_left_comm] at hMore
      rw [hText, Nat.add_right_comm, Nat.add_assoc n m k, readAll, if_neg (hStart _ hMark), hRead (m + k) _
        hMark]
      simp [hMore, joined]

namespace Readable

theorem leaf (h : ∀ rest, Ends rest → lead (e.source.toList ++ rest) = some (.leaf e.joined rest)) :
    e.Readable := by
  refine ⟨1, fun k rest hRest => ?_⟩
  rw [Nat.add_comm, read, h rest hRest]
  rfl

theorem operator (hx : x.Readable) (front : List Char) (build : Expr → Expr)
    (hText : e.source.toList = front ++ x.source.toList)
    (h : ∀ cs, lead (front ++ cs) = some (.operator build cs)) (hBuild : build x.joined = e.joined) :
      e.Readable := by
  obtain ⟨n, hx⟩ := hx
  refine ⟨n + 1, fun k rest hRest => ?_⟩
  rw [hText, append_assoc, Nat.add_right_comm, read, h]
  simp [hx k rest hRest, hBuild]

theorem bracket (hes : ∀ e ∈ es, e.Readable) (front : List Char) (build : List Expr → Expr)
    (hc : c ∈ [')', ']']) (hText : e.source.toList = front ++ (itemText es ++ [c]))
    (h : ∀ cs, lead (front ++ cs) = some (.bracket build cs))
    (hBuild : build (strippedAll joinMinus es) = e.joined) :
    e.Readable := by
  obtain ⟨n, hItems⟩ := readAll_items hes hc
  refine ⟨n + 1, fun k rest hRest => ?_⟩
  rw [hText, append_assoc, Nat.add_right_comm, read, h]
  simp [hItems, hRest, hBuild]

theorem ident (hv : v.Ordinary) : (ident v).Readable :=
  leaf fun _ hRest => (lead_ident hv hRest.follows).trans (congrArg some (leadIdent_ends _ hRest))

theorem unary (p : Pos) {op : Operator} (t : Ty) (hOp : op ∈ Operator.unaries) (hx : x.Readable) :
    (unary p op x t).Readable := by
  have hText : (Expr.unary p op x t).source.toList = op.symbol.toList ++ x.source.toList := by simp
  simp only [Operator.unaries, mem_cons, not_mem_nil, or_false] at hOp
  rcases hOp with rfl | rfl | rfl
  · exact hx.operator ['-'] joinMinus hText (fun _ => rfl) rfl
  · exact hx.operator ['~'] (Expr.unary {} .bitNot · .void) hText (fun _ => rfl) rfl
  · exact hx.operator ['!'] (Expr.unary {} .boolNot · .void) hText (fun _ => rfl) rfl

theorem incDec (p : Pos) (d before : Bool) (t : Ty) (hv : v.Ordinary) :
    (incDec p d before (some v) t).Readable := by
  cases before with
  | false =>
    refine leaf fun rest hRest => ?_
    have hText : (Expr.incDec p d false (some v) t).source.toList ++ rest =
        v.source.toList ++ ((incDecMark d).toList ++ rest) := by
      simp [targetSource]
    rw [hText]
    cases d with
    | false | true => exact lead_ident hv (by simp [incDecMark, follows])
  | true =>
    cases d with
    | true =>
      -- A decrement has the text of two minus signs, and reads as they do.
      have hMinus := (ident hv).unary {} .void (by decide : .neg ∈ Operator.unaries)
      exact hMinus.operator ['-'] joinMinus (by simp [targetSource, incDecMark, Operator.symbol])
        (fun _ => rfl) rfl
    | false =>
      exact (ident hv).operator ['+', '+'] increment (by simp [targetSource, incDecMark])
        (fun _ => rfl) rfl

end Readable

theorem Operational.readable (h : e.Operational) : e.Readable := by
  have hEnd : ')' ∈ [')', ']'] := by decide
  induction h with
  | int p t hn => exact .leaf fun rest hRest => lead_digits hn hRest
  | string p s t =>
    refine .leaf fun rest _ => ?_
    obtain ⟨body, hText, hBody⟩ := Text.unquote_quote s rest
    have hLead : lead ('"' :: body) = leadMark ('"' :: body) := rfl
    rw [source, hText, hLead, leadMark, hBody, String.ofList_toList]
    rfl
  | ident hv => exact .ident hv
  | incDec p d before t hv => exact .incDec p d before t hv
  | unary p t hOp h ih => exact ih.unary p t hOp
  | @cast p target x t hTarget h ih =>
    have hKnown : ∀ t ∈ Ty.known, t.name.toList.all isWordChar = true ∧
        (t.name.toList.headD '0').isDigit = false ∧ Ty.ofName? t.name = some t := by decide
    obtain ⟨hWord, hDigit, hType⟩ := hKnown target hTarget
    have hName : (Expr.ident ⟨{}, target.name, "", none, .void⟩).Readable :=
      .ident ⟨⟨hWord, hDigit⟩, .inl rfl⟩
    obtain ⟨n, hItems⟩ := readAll_items (List.forall_mem_singleton.mpr hName) hEnd
    have hStart := @ih.starts
    obtain ⟨m, hx⟩ := ih
    refine ⟨n + m + 1, fun k rest hRest => ?_⟩
    have hText : (Expr.cast p target x t).source.toList ++ rest = '(' ::
        (itemText [.ident ⟨{}, target.name, "", none, .void⟩] ++ ')' :: (x.source.toList ++ rest)) := by
      simp [itemText, Ident.source]
    have hLead : ∀ cs, lead ('(' :: cs) = some (.bracket (fun es => .paren {} (es.headD .missing) .void)
      cs) :=
      fun _ => rfl
    have hOperand := hx (n + k) rest hRest
    rw [Nat.add_left_comm] at hOperand
    rw [hText, Nat.add_right_comm, Nat.add_assoc n m k, read, hLead]
    simp [hItems, hStart _ hRest, hOperand, castTo, bareIdent, hType, joined]
  | paren p t h ih =>
    exact .bracket (List.forall_mem_singleton.mpr ih) ['('] (fun es => .paren {} (es.headD .missing) .void)
      hEnd
      (by simp [itemText]) (fun _ => rfl) rfl
  | print p t h ih =>
    exact .bracket (List.forall_mem_singleton.mpr ih) ("print".toList ++ ['(']) (callOf "print") hEnd
      (by simp [itemText]) (lead_call ⟨by decide, by decide⟩) rfl
  | list p t h ih =>
    exact .bracket ih ['['] (.list {} · .void) (by decide : ']' ∈ _) (by simp [itemText]) (fun _ => rfl)
      rfl
  | @call p name args c t hWord hPrint h ih =>
    exact .bracket ih (name.toList ++ ['(']) (callOf name) hEnd (by simp [itemText]) (lead_call hWord)
      (if_neg hPrint)

section Stripped

variable {m n : Expr → Expr}

theorem strippedAll_eq_map (es : List Expr) : strippedAll m es = es.map (stripped m) := by
  induction es with
  | nil => rfl
  | cons e es ih => rw [strippedAll, ih, map_cons]

theorem sources_eq_map (es : List Expr) : sources es = es.map source := by
  induction es with
  | nil => rfl
  | cons e es ih => rw [sources, ih, map_cons]

/-- A text does not show positions and notes. -/
theorem source_stripped (hm : ∀ x, (m x).source = "-" ++ x.source) (e : Expr) :
    (e.stripped m).source = e.source := by
  induction e with
  | unary p op x t ih => cases op <;> simp [ih, hm, Operator.symbol]
  | list p es t ih | call p name es c t ih =>
    have hItems : sources (strippedAll m es) = sources es := by
      rw [sources_eq_map, strippedAll_eq_map, map_map, sources_eq_map]
      exact map_congr_left ih
    rw [stripped, source, source, hItems]
  | assign p op v x la ra t ih => cases v <;> simp [ih, targetSource, Ident.source, bareIdent]
  | incDec p d before v t => cases v <;> simp [targetSource, Ident.source, bareIdent]
  | _ => simp_all [Ident.source, bareIdent]

end Stripped

theorem source_joinMinus (x : Expr) : (joinMinus x).source = "-" ++ x.source := by
  unfold joinMinus
  split
  · simp [targetSource, incDecMark, Operator.symbol, ← String.append_assoc]
  · rfl

/-- No minus stands before the minus of a variable. -/
def Apart (e : Expr) : Prop := ∀ p q v t u, unary p .neg (unary q .neg (ident v) t) u ∉ e.parts

theorem Apart.part (h : e.Apart) (hx : ∀ y ∈ x.parts, y ∈ e.parts) : x.Apart :=
  fun p q v t u hMem => h p q v t u (hx _ hMem)

theorem joinMinus_bare (h : ∀ q v t, x ≠ unary q .neg (ident v) t) : joinMinus x.bare = minus x.bare := by
  cases x with
  | unary q op y t =>
    cases op with
    | neg =>
      cases y with
      | ident v => exact absurd rfl (h q v t)
      | unary _ op => cases op <;> rfl
      | _ => rfl
    | _ => rfl
  | _ => rfl

theorem Operational.joined_eq_bare (h : e.Operational) (hApart : e.Apart) : e.joined = e.bare := by
  unfold joined bare
  induction h with
  | @unary p op x t hOp h ih =>
    have hSame := ih (hApart.part fun y hy => by simp [parts, hy])
    simp only [Operator.unaries, mem_cons, not_mem_nil, or_false] at hOp
    rcases hOp with rfl | rfl | rfl
    · rw [stripped, stripped, hSame]
      refine joinMinus_bare ?_
      rintro q v t' rfl
      exact hApart p q v t' t (by simp [parts])
    · simp [hSame]
    · simp [hSame]
  | cast p t _ _ ih | paren p t _ ih | print p t _ ih =>
    rw [stripped, stripped, ih (hApart.part fun y hy => by simp [parts, hy])]
  | list p t _ ih | call p c t _ _ _ ih =>
    rw [stripped, stripped, strippedAll_eq_map, strippedAll_eq_map, map_congr_left fun e he =>
      ih e he (hApart.part fun y hy => by simpa [parts, mem_partsAll] using .inr ⟨e, he, hy⟩)]
  | int | string | ident | incDec => rfl

/-- Two expressions have one text exactly if they are the same tree up to positions and notes, where a minus
before the minus of a variable counts as a decrement. Without such pairs of signs they are the same tree as
they stand. -/
theorem source_eq_iff {e f : Expr} (he : e.Operational) (hf : f.Operational) :
    (e.source = f.source ↔ e.joined = f.joined) ∧
      (e.Apart → f.Apart → (e.source = f.source ↔ e.bare = f.bare)) := by
  have hIff : e.source = f.source ↔ e.joined = f.joined := by
    constructor
    · intro h
      obtain ⟨n, hn⟩ := he.readable
      obtain ⟨m, hm⟩ := hf.readable
      have hRead := hn m [] (by decide)
      rw [h, Nat.add_comm, hm n [] (by decide)] at hRead
      exact (Prod.mk.inj (Option.some.inj hRead)).1.symm
    · intro h
      rw [← source_stripped source_joinMinus e, ← source_stripped source_joinMinus f]
      exact congrArg source h
  refine ⟨hIff, fun hApart hApart' => ?_⟩
  rw [hIff, he.joined_eq_bare hApart, hf.joined_eq_bare hApart']

def shortVar : Ident := ⟨{}, "x", "", none, .void⟩

theorem shortVar_ordinary : shortVar.Ordinary := ⟨⟨by decide, by decide⟩, .inl rfl⟩

theorem source_eq_iff_short :
    let e := minus (paren {} (minus (ident shortVar)) .void)
    let f := incDec {} true true (some shortVar) .void
    e.Operational ∧ f.Operational ∧ e.Apart ∧ f.Apart ∧ (e.source = f.source ↔ e.bare = f.bare) :=
      by
  intro e f
  have he : e.Operational :=
    .unary _ _ (by decide) (.paren _ _ (.unary _ _ (by decide) (.ident shortVar_ordinary)))
  have hf : f.Operational := .incDec _ _ _ _ shortVar_ordinary
  have hApart : e.Apart := by simp [e, Apart, parts, minus]
  have hApart' : f.Apart := by simp [f, Apart, parts, ofTarget]
  exact ⟨he, hf, hApart, hApart', (source_eq_iff he hf).2 hApart hApart'⟩

/-- The negation of the negation of a variable has the text of its decrement. -/
theorem source_of_double_minus :
    let e := minus (minus (ident shortVar))
    let f := incDec {} true true (some shortVar) .void
    e.Operational ∧ f.Operational ∧ e.source = "--x" ∧ f.source = "--x" ∧ e.bare ≠ f.bare := by
  refine ⟨.unary _ _ (by decide) (.unary _ _ (by decide) (.ident shortVar_ordinary)),
    .incDec _ _ _ _ shortVar_ordinary, by decide +kernel, by decide +kernel, ?_⟩
  intro h
  cases h

end Expr
end Lsl
