/-! What an analysis cannot cope with: a tree that the analyses before it have not completed. -/
namespace Lsl

inductive Fault where
  /-- A part of the tree is missing. -/
  | missing
  /-- A name has no symbol. -/
  | unbound
  /-- A call has more arguments than its callee has parameters. -/
  | arity
deriving DecidableEq, Repr

namespace Fault

/-- The part, or the fault of missing it. -/
def need (f : Fault) : Option α → Except Fault α
  | some a => .ok a
  | none => .error f

end Fault
end Lsl
