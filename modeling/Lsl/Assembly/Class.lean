import Lsl.Assembly.Sequence

/-! A program as one class of assembly text: globals are static fields that a constructor fills,
functions are static methods, and handlers are instance methods. -/
namespace Lsl.Assembly

inductive ClassError where
  | function (name : String) (cause : SequenceError)
  | handler (state : String) (kind : EventKind) (cause : SequenceError)
deriving DecidableEq

def ClassError.message : ClassError → String
  | function n e => s!"function {n}: {e.message}"
  | handler s k e => s!"state {s} event {k.name}: {e.message}"

/-- A line at a depth of four blanks each; an empty line stays empty. -/
def line (depth : Nat) (s : String) : String :=
  if s = "" then "\n" else String.ofList (List.replicate (4 * depth) ' ') ++ s ++ "\n"

def lines (depth : Nat) (ss : List String) : String := String.join (ss.map (line depth))

def braced (depth : Nat) (inner : String) : String :=
  line depth "\x7b" ++ inner ++ line depth "\x7d"

def declarations (slots : List Slot) : String :=
  ", ".intercalate (slots.map fun s => s!"{typeName s.ty} '{s.name}'")

def fieldValue (g : GlobalData) : List String :=
  let v := match g.value with
    | .void => Value.zero g.ty
    | v => v
  constant v ++ cast v.ty g.ty ++ ["stsfld " ++ field g.ty g.name]

def staticConstructor (gs : List GlobalData) : String :=
  line 1 ".method private hidebysig specialname rtspecialname static void .cctor() cil managed" ++
    braced 1 (lines 2 ([".maxstack 500"] ++ gs.flatMap fieldValue ++ ["ret"]))

def method (kind name : String) (f : Frame) : Except SequenceError String := do
  let b := f.body
  let code ← b.code.mapM f.lines
  let head := s!".method public hidebysig {kind} {typeName b.result} '{name}'" ++
    s!"({declarations b.params}) cil managed"
  let locals := if b.locals.isEmpty then [] else [s!".locals init ({declarations b.locals})"]
  return line 1 "" ++ line 1 head ++
    braced 1 (lines 2 ([".maxstack 500"] ++ locals ++ code.flatten))

def functionMethod (gs : List GlobalData) (f : FunctionCode) : Except ClassError String :=
  match method "static" ("g" ++ f.name) ⟨gs, false, f.body⟩ with
  | .ok s => .ok s
  | .error e => .error (.function f.name e)

def handlerMethod (gs : List GlobalData) (state : String) (h : HandlerCode) :
    Except ClassError String :=
  match method "instance" s!"e{state}{h.kind.name}" ⟨gs, true, h.body⟩ with
  | .ok s => .ok s
  | .error e => .error (.handler state h.kind e)

def preamble : List String :=
  ["mscorlib", "LslUserScript", "LslLibrary", "ScriptTypes"].map
    (fun n => s!".assembly extern {n} \x7b\x7d") ++
  [s!".assembly '{scriptClass}' \x7b\x7d", "",
    s!".class public auto ansi beforefieldinit {scriptClass} extends {runtimeClass}"]

def generate (p : Program) : Except ClassError String := do
  let fields := p.globals.map fun g => s!".field public static {typeName g.ty} '{g.name}'"
  let functions ← p.functions.mapM (functionMethod p.globals)
  let handlers ← p.states.mapM fun s => s.events.mapM (handlerMethod p.globals s.name)
  return lines 0 preamble ++
    braced 0 (lines 1 fields ++ staticConstructor p.globals ++ String.join functions ++
      String.join handlers.flatten)

end Lsl.Assembly
