/-! Words and their letters. -/
namespace Lsl.Text

/-- A word with its first letter as a capital. Words are in plain Latin letters. -/
def capitalize (s : String) : String :=
  match s.toList with
  | [] => ""
  | c :: cs => String.ofList (c.toUpper :: cs)

end Lsl.Text
