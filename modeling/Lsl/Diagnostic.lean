import Lsl.Script.Basic

/-! Problems found in a script. Errors stop a compile; warnings do not. -/
namespace Lsl

inductive ProblemKind where
  | malformedTree
  | duplicateName
  | undefinedName
  | typeMismatch
  | noReturn
  | invalidVoidReturn
  | invalidValueReturn
  | stateChangeInFunction
  | argumentMismatch
  | listNesting
  | outOfMemory
  | nonConstantGlobal
  | eventSignature
  | unknownEvent
  | deadCode
  /-- A number outside these. -/
  | unknown (code : Int)
deriving DecidableEq

namespace ProblemKind

def all : List ProblemKind :=
  [malformedTree, duplicateName, undefinedName, typeMismatch, noReturn, invalidVoidReturn,
    invalidValueReturn, stateChangeInFunction, argumentMismatch, listNesting, outOfMemory,
    nonConstantGlobal, eventSignature, unknownEvent, deadCode]

def ofCode (n : Int) : ProblemKind :=
  if n < 0 then unknown n else all.getD n.toNat (unknown n)

def code (k : ProblemKind) : Int :=
  match k with
  | unknown n => n
  | k => all.idxOf k

def text : ProblemKind → String
  | malformedTree => "Malformed syntax tree"
  | duplicateName => "Duplicate local variable name"
  | undefinedName => "Name not defined within scope"
  | typeMismatch => "Type mismatch"
  | noReturn => "Not all code paths return a value"
  | invalidVoidReturn => "Function returns a value but return statement doesn't"
  | invalidValueReturn => "Return statement type doesn't match function return type"
  | stateChangeInFunction => "Global functions can't change state"
  | argumentMismatch => "Function call mismatches type or number of arguments"
  | listNesting => "Lists can't include lists"
  | outOfMemory => "Script is too large"
  | nonConstantGlobal => "Global initializer must be a constant"
  | eventSignature => "Event handler parameters don't match the event"
  | unknownEvent => "Unknown event handler"
  | deadCode => "Dead code found beyond return statement"
  | unknown n => s!"ErrorKind({n})"

/-- Whether problems of this kind leave the result usable. -/
def isWarning (k : ProblemKind) : Bool := k == deadCode

end ProblemKind

inductive Severity where
  | error
  | warning
deriving DecidableEq

def Severity.text : Severity → String
  | error => "ERROR"
  | warning => "WARN"

structure Diagnostic where
  pos : Pos
  kind : ProblemKind
  severity : Severity := .error
  message : String := ""
deriving DecidableEq

namespace Diagnostic

def text (d : Diagnostic) : String :=
  s!"({d.pos.line}, {d.pos.column}) : {d.severity.text} : {d.kind.text}" ++
    if d.message = "" then "" else ": " ++ d.message

def isError (d : Diagnostic) : Bool := d.severity == .error

def errors (ds : List Diagnostic) : Nat := (ds.filter (·.isError)).length

def warnings (ds : List Diagnostic) : Nat := (ds.filter (!·.isError)).length

def failed (ds : List Diagnostic) : Bool := ds.any (·.isError)

def log (ds : List Diagnostic) : String := String.join (ds.map fun d => d.text ++ "\n")

/-- The verdict on a script with errors, which shows the first of them. -/
def verdict (errors : Int) (ds : List Diagnostic) : String :=
  s!"compilation failed with {errors} error(s)" ++
    match ds.find? (·.isError) with
    | some d => "; first: " ++ d.text
    | none => ""

end Diagnostic
end Lsl
