import Lsl.Language.Ty

/-! Scopes. A scope holds the names declared in it; scopes nest, and a name is sought from the
innermost scope outward. Inner declarations hide outer ones, and only a second declaration in the
same scope is refused. -/
namespace Lsl

inductive SymbolKind where
  | global
  | local
  | function
  | label
  | state
  | event
  | library
  /-- A kind outside these, counted from the first free number. -/
  | unknown (n : Nat)
deriving DecidableEq

namespace SymbolKind

def name : SymbolKind → String
  | global => "global"
  | .local => "local"
  | function => "function"
  | label => "label"
  | state => "state"
  | event => "event"
  | library => "library"
  | unknown n => s!"SymbolKind({n + 7})"

def ofCode : Nat → SymbolKind
  | 0 => global
  | 1 => .local
  | 2 => function
  | 3 => label
  | 4 => state
  | 5 => event
  | 6 => library
  | n + 7 => unknown n

/-- Whether a symbol of this kind serves where `want` is sought: functions of the script and of the
library serve alike, and so do globals and locals. -/
def serves (kind want : SymbolKind) : Bool :=
  match want with
  | function | library => kind == function || kind == library
  | global | .local => kind == global || kind == .local
  | _ => kind == want

end SymbolKind

structure Symbol where
  name : String
  kind : SymbolKind
  /-- The type of a variable or of a function's result. -/
  ty : Ty
  /-- The parameters of a function or event, if it has a list of them. -/
  params : Option (List Ty) := none
  /-- The number among its like: of a global, a frame slot, a function, a state or a label in order
  of declaration; the number of an event; the index of a library function. -/
  index : Nat := 0
  /-- The place of a variable, once it has one. -/
  offset : Int := 0
  /-- The declaration run that made the symbol. -/
  round : Nat := 0
deriving DecidableEq

namespace Symbol

def isVariable (s : Symbol) : Bool := s.kind == .global || s.kind == .local

def size (s : Symbol) : Nat := s.ty.size

def line (s : Symbol) : String :=
  Text.padRight 8 s.kind.name ++ " " ++ Text.padRight 24 s.name ++ " " ++
    Text.padRight 8 s.ty.name ++
    (if s.isVariable then s!" @{s.offset}+{s.size}" else "") ++
    (match s.params with
      | some ts => s!" ({Ty.letters ts})"
      | none => "") ++ "\n"

end Symbol

/-- The names declared in one scope, in order of declaration. -/
structure Scope where
  symbols : List Symbol := []
deriving DecidableEq

namespace Scope

def local? (s : Scope) (name : String) : Option Symbol := s.symbols.find? (·.name == name)

/-- Adds a symbol, unless its name is taken in this scope. -/
def declare? (s : Scope) (sym : Symbol) : Option Scope :=
  if (s.local? sym.name).isSome then none else some ⟨s.symbols ++ [sym]⟩

/-- The innermost symbol with a name, in scopes listed from the innermost outward. -/
def lookup? (chain : List Scope) (name : String) : Option Symbol :=
  chain.findSome? fun s => s.local? name

/-- The innermost symbol with a name that serves where a kind is sought. -/
def lookupKind? (chain : List Scope) (name : String) (want : SymbolKind) : Option Symbol :=
  chain.findSome? fun s => (s.local? name).filter fun sym => sym.kind.serves want

def sorted (s : Scope) : List Symbol :=
  s.symbols.mergeSort fun a b => decide (¬ b.name < a.name)

def listing (s : Scope) (indent : String) (skipLibrary : Bool) : String :=
  String.join (((s.sorted.filter fun sym => !(skipLibrary && sym.kind == .library))).map
    fun sym => indent ++ sym.line)

end Scope

inductive ScopeError where
  /-- Its name is taken in its scope. -/
  | duplicateName (name : String)

def ScopeError.message : ScopeError → String
  | duplicateName name => s!"duplicate name: {name}"

/-- Scopes by number, each with the number of the scope around it, which is always smaller. -/
structure ScopeForest where
  scopes : List (Option Nat × Scope) := []

namespace ScopeForest

/-- Opens a scope inside `parent` and returns its number. -/
def add (f : ScopeForest) (parent : Option Nat) : ScopeForest × Nat :=
  (⟨f.scopes ++ [(parent, ⟨[]⟩)]⟩, f.scopes.length)

def parent? (f : ScopeForest) (n : Nat) : Option Nat := (f.scopes[n]?).bind (·.1)

def scope (f : ScopeForest) (n : Nat) : Scope := ((f.scopes[n]?).map (·.2)).getD ⟨[]⟩

/-- A scope and those around it. A parent that is not smaller ends the walk. -/
def chain (f : ScopeForest) (n : Nat) : List Scope :=
  f.scope n ::
    match f.parent? n with
    | none => []
    | some p => if p < n then f.chain p else []
termination_by n

def declare (f : ScopeForest) (n : Nat) (sym : Symbol) : Except ScopeError ScopeForest :=
  match (f.scope n).declare? sym with
  | some s => .ok ⟨f.scopes.modify n fun (p, _) => (p, s)⟩
  | none => .error (.duplicateName sym.name)

end ScopeForest
end Lsl
