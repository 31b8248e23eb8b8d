import Lsl.Bytes
import Lsl.Text.Utf8
import Lsl.Toml.Scalar

/-! Configuration texts: lines that open a table or give a value to a key. -/
namespace Lsl.Toml

def isBlank (c : Char) : Bool := c == ' ' || c == '\t'

def skipBlank (cs : Chars) : Chars := cs.dropWhile isBlank

def skipSpace (inComment : Bool) : Chars → Chars
  | [] => []
  | c :: cs =>
    if inComment then skipSpace (c != '\n') cs
    else if isBlank c || c == '\n' || c == '\r' then skipSpace false cs
    else if c == '#' then skipSpace true cs
    else c :: cs

def newline? : Chars → Option Chars
  | '\n' :: cs => some cs
  | '\r' :: '\n' :: cs => some cs
  | _ => none

/-- Whether a text has no control characters but tabs and ends of lines. -/
def isClean : Chars → Bool
  | [] => true
  | '\r' :: '\n' :: cs => isClean cs
  | c :: cs => (c == '\t' || c == '\n' || (' ' ≤ c && c != '\x7f')) && isClean cs

def escaped? (width : Nat) (cs : Chars) : Option (Char × Chars) :=
  let ds := cs.take width
  let n := numberOf 16 ds
  if ds.length = width ∧ ds.all (isDigitOf 16) ∧ n.isValidChar then some (Char.ofNat n, cs.drop width)
  else none

def escape? : Chars → Option (Char × Chars)
  | 'b' :: cs => some ('\x08', cs)
  | 't' :: cs => some ('\t', cs)
  | 'n' :: cs => some ('\n', cs)
  | 'f' :: cs => some ('\x0c', cs)
  | 'r' :: cs => some ('\r', cs)
  | 'e' :: cs => some ('\x1b', cs)
  | '"' :: cs => some ('"', cs)
  | '\\' :: cs => some ('\\', cs)
  | 'x' :: cs => escaped? 2 cs
  | 'u' :: cs => escaped? 4 cs
  | 'U' :: cs => escaped? 8 cs
  | _ => none

def apostrophe : Char := Char.ofNat 39

def quoted? : Nat → Chars → Option (Chars × Chars)
  | 0, _ => none
  | _, [] => none
  | fuel + 1, c :: cs =>
    if c = '"' then some ([], cs)
    else if c = '\\' then do
      let (d, cs) ← escape? cs
      let (s, cs) ← quoted? fuel cs
      return (d :: s, cs)
    else if c = '\n' ∨ c = '\r' then none
    else do
      let (s, cs) ← quoted? fuel cs
      return (c :: s, cs)

def literal? (cs : Chars) : Option (Chars × Chars) :=
  let (s, rest) := cs.span (· != apostrophe)
  match rest with
  | _ :: rest => if s.contains '\n' then none else some (s, rest)
  | [] => none

/-- What closes a text over several lines at the start of `cs`: three quotes, and before them up to
`most` quotes that belong to the text. -/
def closing? (q : Char) (most : Nat) (cs : Chars) : Option (Chars × Chars) :=
  let run := (cs.takeWhile (· == q)).length
  if run < 3 then none
  else
    let extra := min (run - 3) most
    some (List.replicate extra q, cs.drop (3 + extra))

def restBlank (cs : Chars) : Bool := (newline? (skipBlank cs)).isSome

/-- The rest of a quoted text over several lines. A backslash at the end of a line joins it with
what follows. The text may end in two quotes, and in three behind a backslash, which `slash` tells. -/
def longQuoted? : Nat → Bool → Chars → Option (Chars × Chars)
  | 0, _, _ => none
  | _, _, [] => none
  | fuel + 1, slash, c :: cs =>
    match closing? '"' (if slash then 3 else 2) (c :: cs) with
    | some done => some done
    | none =>
      if c = '\\' then
        if restBlank cs then
          longQuoted? fuel false (cs.dropWhile fun c => isBlank c || c == '\n' || c == '\r')
        else do
          let (d, rest) ← escape? cs
          let (s, rest) ← longQuoted? fuel (cs.head? == some '\\') rest
          return (d :: s, rest)
      else do
        let (s, cs) ← longQuoted? fuel false cs
        return (c :: s, cs)

/-- The rest of a text over several lines without escapes. -/
def longLiteral? : Nat → Chars → Option (Chars × Chars)
  | 0, _ => none
  | _, [] => none
  | fuel + 1, c :: cs =>
    match closing? apostrophe 2 (c :: cs) with
    | some done => some done
    | none => do
      let (s, cs) ← longLiteral? fuel cs
      return (c :: s, cs)

/-- A text over several lines does not start with the end of its first line. -/
def dropNewline (cs : Chars) : Chars := (newline? cs).getD cs

def tripled (c : Char) (cs : Chars) : Bool := cs.take 3 == [c, c, c]

def text? (cs : Chars) : Option (Chars × Chars) :=
  if tripled '"' cs then longQuoted? cs.length false (dropNewline (cs.drop 3))
  else if tripled apostrophe cs then longLiteral? cs.length (dropNewline (cs.drop 3))
  else match cs with
    | c :: rest =>
      if c = '"' then quoted? cs.length rest
      else if c = apostrophe then literal? rest
      else none
    | [] => none

def isBare (c : Char) : Bool := c.isAlphanum || c == '_' || c == '-'

def keyPart? (cs : Chars) : Option (String × Chars) :=
  match cs with
  | [] => none
  | c :: rest =>
    if c = '"' then (quoted? cs.length rest).map fun (s, cs) => (String.ofList s, cs)
    else if c = apostrophe then (literal? rest).map fun (s, cs) => (String.ofList s, cs)
    else
      let s := cs.takeWhile isBare
      if s.isEmpty then none else some (String.ofList s, cs.dropWhile isBare)

def key? : Nat → Chars → Option (List String × Chars)
  | 0, _ => none
  | fuel + 1, cs => do
    let (k, cs) ← keyPart? (skipBlank cs)
    match skipBlank cs with
    | '.' :: cs => do
      let (ks, cs) ← key? fuel cs
      return (k :: ks, cs)
    | cs => return ([k], cs)

def isWordChar (c : Char) : Bool :=
  c.isAlphanum || c == '_' || c == '-' || c == '+' || c == '.' || c == ':'

/-- A word; a date may go on with a time after one blank. -/
def word (cs : Chars) : Chars × Chars :=
  let (w, rest) := cs.span isWordChar
  match rest with
  | ' ' :: d :: more =>
    if date? w = some [] ∧ d.isDigit then
      let (t, rest) := (d :: more).span isWordChar
      (w ++ ' ' :: t, rest)
    else (w, rest)
  | _ => (w, rest)

mutual

def value? : Nat → Chars → Option (Written × Chars)
  | 0, _ => none
  | fuel + 1, cs =>
    match cs with
    | '[' :: cs => do
      let (ws, cs) ← items? fuel cs
      return (.array ws, cs)
    | '\x7b' :: cs => do
      let (ms, cs) ← members? fuel cs
      return (.braces ms, cs)
    | c :: _ =>
      if c = '"' ∨ c = apostrophe then do
        let (s, cs) ← text? cs
        return (.scalar (.string (String.ofList s)), cs)
      else do
        let (w, cs) := word cs
        return (.scalar (← scalar? w), cs)
    | [] => none

/-- The rest of an array. A comma may follow the last value. -/
def items? : Nat → Chars → Option (List Written × Chars)
  | 0, _ => none
  | fuel + 1, cs =>
    match skipSpace false cs with
    | ']' :: cs => some ([], cs)
    | cs => do
      let (w, cs) ← value? fuel cs
      match skipSpace false cs with
      | ',' :: cs => do
        let (ws, cs) ← items? fuel cs
        return (w :: ws, cs)
      | ']' :: cs => return ([w], cs)
      | _ => none

/-- The rest of a table in braces. A comma may follow the last member. -/
def members? : Nat → Chars → Option (List (KeyPath × Written) × Chars)
  | 0, _ => none
  | fuel + 1, cs =>
    match skipSpace false cs with
    | '\x7d' :: cs => some ([], cs)
    | cs => do
      let (k, cs) ← key? fuel cs
      let cs ← mark? '=' cs
      let (w, cs) ← value? fuel (skipBlank cs)
      match skipSpace false cs with
      | ',' :: cs => do
        let (ms, cs) ← members? fuel cs
        return ((k, w) :: ms, cs)
      | '\x7d' :: cs => return ([(k, w)], cs)
      | _ => none

end

/-- What may follow on a line: blanks, a comment, and the end of the line. -/
def lineEnd? (cs : Chars) : Option Chars :=
  match skipBlank cs with
  | [] => some []
  | '#' :: cs => some (cs.dropWhile (· != '\n'))
  | cs => newline? cs

def line? (fuel : Nat) (cs : Chars) : Option (Line × Chars) :=
  match cs with
  | '[' :: '[' :: cs => do
    let (k, cs) ← key? fuel cs
    let cs ← mark? ']' cs
    let cs ← mark? ']' cs
    return (.row k, ← lineEnd? cs)
  | '[' :: cs => do
    let (k, cs) ← key? fuel cs
    let cs ← mark? ']' cs
    return (.header k, ← lineEnd? cs)
  | cs => do
    let (k, cs) ← key? fuel cs
    let cs ← mark? '=' cs
    let (w, cs) ← value? fuel (skipBlank cs)
    return (.member k w, ← lineEnd? cs)

def linesFrom? : Nat → Chars → Option (List Line)
  | 0, _ => none
  | fuel + 1, cs =>
    match skipSpace false cs with
    | [] => some []
    | cs => do
      let (l, cs) ← line? cs.length cs
      return l :: (← linesFrom? fuel cs)

def withoutMark : Bytes → Bytes
  | 0xef :: 0xbb :: 0xbf :: bs => bs
  | 0xff :: 0xfe :: bs => bs
  | 0xfe :: 0xff :: bs => bs
  | bs => bs

/-- The lines of a configuration text that say something. -/
def lines? (bs : Bytes) : Option (List Line) := do
  let s ← Text.ofBytes? (withoutMark bs)
  let cs := s.toList
  guard (isClean cs)
  linesFrom? (cs.length + 1) cs

end Lsl.Toml
