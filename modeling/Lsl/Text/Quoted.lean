import Lsl.Text.Number
import Lsl.Text.Printable
import Lsl.Text.Utf8

/-! Quoted text. Control characters have their usual letters or a numeric escape, unprintable
characters and bytes outside any character are written by number, and all else stands as it is. -/
namespace Lsl.Text

/-- The escape of one character between quotes of the kind `mark`. -/
def escapeChar (mark c : Char) : String :=
  if c = mark ∨ c = '\\' then String.ofList ['\\', c]
  else if isPrintable c.toNat then String.singleton c
  else match c.toNat with
    | 7 => "\\a"
    | 8 => "\\b"
    | 12 => "\\f"
    | 10 => "\\n"
    | 13 => "\\r"
    | 9 => "\\t"
    | 11 => "\\v"
    | n =>
      if n < 128 then "\\x" ++ hexPadded 2 n
      else if n < 65536 then "\\u" ++ hexPadded 4 n
      else "\\U" ++ hexPadded 8 n

def escapePiece (mark : Char) : Piece → String
  | .char c => escapeChar mark c
  | .raw b => "\\x" ++ hexPadded 2 b.toNat

def quote (s : String) : String :=
  "\"" ++ String.join (s.toList.map (escapeChar '"')) ++ "\""

def quoteBytes (bs : List UInt8) : String :=
  "\"" ++ String.join ((pieces bs).map (escapePiece '"')) ++ "\""

def apostrophe : Char := Char.ofNat 39

def quoteChar (c : Char) : String := "'" ++ escapeChar apostrophe c ++ "'"

end Lsl.Text
