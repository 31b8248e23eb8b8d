import Lsl.Proofs.StackTyping

/-! Values of expressions. The operators, casts, literals, calls and the memory are left open: an
interpretation gives them, and over it stand both the value of an expression, from left to right, and
a stack machine for code without branches. -/
namespace Lsl

/-- Where a variable is kept: among the globals or in the frame, at an offset. -/
structure Location where
  isGlobal : Bool
  offset : Int32

/-- What the operations on values of `V` and memories of `M` do. -/
structure Interpretation (V M : Type) where
  const : Value → V
  unary : Operator → Ty → V → V
  binary : Operator → Ty → Ty → V → V → V
  cast : Ty → Ty → V → V
  vector : V → V → V → V
  rotation : V → V → V → V → V
  list : List V → V
  /-- Reads a variable, or the component of it that is named. -/
  load : Location → Ty → String → M → V
  /-- Writes a variable, or the component of it that is named. -/
  save : Location → Ty → String → V → M → M
  call : CallTarget → List V → M → V × M
  print : Ty → V → M → M

namespace Surroundings

def place (e : Surroundings) (s : Symbol) : Location := ⟨s.kind == .global, e.offset s⟩

def callee (e : Surroundings) (s : Symbol) : CallTarget :=
  { library := s.kind == .library, index := e.index s, name := s.name, result := s.ty,
    params := s.params.getD [], argBytes := Ty.frameSize (s.params.getD []) }

end Surroundings

namespace Interpretation

variable {V M : Type} (I : Interpretation V M) (e : Surroundings)

/-- Agreement with the folding of constants. -/
structure Folds : Prop where
  neg : ∀ v w, v.neg? = some w → I.unary .neg v.ty (I.const v) = I.const w
  toFloat : ∀ n, I.cast .integer .float (I.const (.integer n)) =
    I.const (.float (Single.ofInt n.toInt))
  vector : ∀ x y z, I.vector (I.const (.float x)) (I.const (.float y)) (I.const (.float z)) =
    I.const (.vector x y z)
  rotation : ∀ x y z s, I.rotation (I.const (.float x)) (I.const (.float y)) (I.const (.float z))
    (I.const (.float s)) = I.const (.rotation x y z s)
  list : ∀ vs, (∀ v ∈ vs, v.ty ≠ .list) → I.list (vs.map I.const) = I.const (.list vs)

/-- The value of a type as a value of another, where no cast is written. -/
def convert (source target : Ty) (v : V) : V :=
  if source = target then v
  else if target = .list then I.list [v]
  else I.cast source target v

def read (v : Ident) : StateM M V := fun m =>
  match v.entry with
  | some s => (I.load (e.place s) v.ty v.member m, m)
  | none => (I.const .void, m)

/-- Assigns a value to a variable, and gives the value. -/
def write (v : Ident) (a : V) : StateM M V := fun m =>
  match v.entry with
  | some s => (a, I.save (e.place s) v.ty v.member a m)
  | none => (a, m)

mutual

/-- The value of an expression. Operands are evaluated from left to right; the value of an
expression of type `void` has no meaning. -/
def eval : Expr → StateM M V
  | .missing => return I.const .void
  | .int _ n _ => return I.const (.integer n)
  | .float _ x _ => return I.const (.float x)
  | .string _ s _ => return I.const (.string s)
  | .vector _ x y z _ => do
    let a ← I.convert x.ty .float <$> eval x
    let b ← I.convert y.ty .float <$> eval y
    let c ← I.convert z.ty .float <$> eval z
    return I.vector a b c
  | .rotation _ x y z s _ => do
    let a ← I.convert x.ty .float <$> eval x
    let b ← I.convert y.ty .float <$> eval y
    let c ← I.convert z.ty .float <$> eval z
    let d ← I.convert s.ty .float <$> eval s
    return I.rotation a b c d
  | .list _ es _ => I.list <$> evalAll es
  | .ident v => I.read e v
  | .unary _ op x _ => I.unary op x.ty <$> eval x
  | .binary _ op l r leftAs rightAs _ => do
    let a ← I.convert l.ty leftAs <$> eval l
    let b ← I.convert r.ty rightAs <$> eval r
    return I.binary op leftAs rightAs a b
  | .assign _ _ none _ _ _ _ => return I.const .void
  | .assign _ op (some v) x leftAs rightAs _ =>
    if op = .none then do
      let b ← I.convert x.ty v.ty <$> eval x
      I.write e v b
    else do
      let a ← I.convert v.ty leftAs <$> I.read e v
      let b ← I.convert x.ty rightAs <$> eval x
      let result := (op.binaryResult? v.ty x.ty).getD .void
      I.write e v (I.convert result v.ty (I.binary op leftAs rightAs a b))
  | .incDec _ _ _ none _ => return I.const .void
  | .incDec _ decrement before (some v) _ => do
    let old ← I.read e v
    let op : Operator := if decrement then .sub else .add
    let new ← I.write e v (I.binary op v.ty v.ty old (I.const (Expr.one v.ty)))
    return if before then new else old
  | .cast _ target x _ => do
    let a ← eval x
    return if x.ty = target then a else I.cast x.ty target a
  | .call _ _ _ none _ => return I.const .void
  | .call _ _ args (some s) _ => do
    let vs ← evalArgs (s.params.getD []) args
    I.call (e.callee s) vs
  | .paren _ x _ => eval x
  | .print _ x _ => do
    let a ← eval x
    modify (I.print x.ty a)
    return I.const .void

def evalAll : List Expr → StateM M (List V)
  | [] => return []
  | x :: es => do
    let a ← eval x
    return a :: (← evalAll es)

def evalArgs : List Ty → List Expr → StateM M (List V)
  | param :: params, x :: es => do
    let a ← I.convert x.ty param <$> eval x
    return a :: (← evalArgs params es)
  | _, _ => return []

end

end Interpretation

/-- What stands in one place of the stack of a machine. -/
inductive Held (V : Type) where
  | value (v : V)
  /-- The room for the result of a call that has begun. -/
  | slot
  /-- The saved frame of a call that has begun. -/
  | mark

namespace Held

variable {V : Type}

/-- The stack after a value of a type is pushed. There are no values of type `void`. -/
def push (t : Ty) (v : V) (st : List (Held V)) : List (Held V) :=
  if t = .void then st else value v :: st

/-- Takes values from the top and puts them, in the order in which they were pushed, before
others. -/
def values? : Nat → List V → List (Held V) → Option (List V × List (Held V))
  | 0, vs, st => some (vs, st)
  | n + 1, vs, value v :: st => values? n (v :: vs) st
  | _, _, _ => none

theorem push_value {t : Ty} (h : t ≠ .void) (v : V) (st : List (Held V)) :
    push t v st = value v :: st := if_neg h

@[simp] theorem push_void (v : V) (st : List (Held V)) : push .void v st = st := rfl

theorem values?_map (ws vs : List V) (st : List (Held V)) :
    values? ws.length vs (ws.map value ++ st) = some (ws.reverse ++ vs, st) := by
  induction ws generalizing vs with
  | nil => rfl
  | cons w ws ih => simp [values?, ih]

/-- What was pushed is taken in its order. -/
theorem values?_pushed (vs : List V) (st : List (Held V)) :
    values? vs.length [] (vs.reverse.map value ++ st) = some (vs, st) := by
  simpa using values?_map vs.reverse [] st

end Held

namespace Interpretation

open Held

variable {V M : Type} (I : Interpretation V M)

/-- Calls a function with arguments, and leaves its result in place of the frame. -/
def callWith? (c : CallTarget) (m : M) (vs : List V) : List (Held V) → Option (List (Held V) × M)
  | .mark :: .slot :: st => some (push c.result (I.call c vs m).1 st, (I.call c vs m).2)
  | _ => none

/-- What an instruction without a branch does to the stack and the memory. -/
def step? (i : Instr) (st : List (Held V)) (m : M) : Option (List (Held V) × M) :=
  match i with
  | .nop => some (st, m)
  | .pushConst v => some (push v.ty (I.const v) st, m)
  | .pushEmpty t => some (push t (I.const (.zero t)) st, m)
  | .pushLocal t offset member => some (push t (I.load ⟨false, offset⟩ t member m) st, m)
  | .pushGlobal t offset member => some (push t (I.load ⟨true, offset⟩ t member m) st, m)
  | .store isGlobal t offset member keep =>
    match st with
    | value v :: rest => some (if keep then st else rest, I.save ⟨isGlobal, offset⟩ t member v m)
    | _ => none
  | .pop _ =>
    match st with
    | value _ :: rest => some (rest, m)
    | _ => none
  | .unary op t =>
    match st with
    | value v :: rest => some (value (I.unary op t v) :: rest, m)
    | _ => none
  | .binary op l r =>
    match st with
    | value b :: value a :: rest => some (value (I.binary op l r a b) :: rest, m)
    | _ => none
  | .cast source target =>
    match st with
    | value v :: rest => some (value (I.cast source target v) :: rest, m)
    | _ => none
  | .toList n => (values? n.toNat [] st).map fun r => (value (I.list r.1) :: r.2, m)
  | .build t =>
    match t, st with
    | .vector, value c :: value b :: value a :: rest => some (value (I.vector a b c) :: rest, m)
    | .rotation, value d :: value c :: value b :: value a :: rest =>
      some (value (I.rotation a b c d) :: rest, m)
    | _, _ => none
  | .callBegin _ => some (mark :: slot :: st, m)
  | .call c => (values? c.params.length [] st).bind fun r => I.callWith? c m r.1 r.2
  | .print t =>
    match st with
    | value v :: rest => some (rest, I.print t v m)
    | _ => none
  | _ => none

def exec? : List Instr → List (Held V) → M → Option (List (Held V) × M)
  | [], st, m => some (st, m)
  | i :: c, st, m => (I.step? i st m).bind fun r => exec? c r.1 r.2

@[simp] theorem exec?_nil (st : List (Held V)) (m : M) : I.exec? [] st m = some (st, m) := rfl

theorem exec?_append (c d : List Instr) (st : List (Held V)) (m : M) :
    I.exec? (c ++ d) st m = (I.exec? c st m).bind fun r => I.exec? d r.1 r.2 := by
  induction c generalizing st m with
  | nil => rfl
  | cons i c ih =>
    simp only [List.cons_append, exec?]
    cases I.step? i st m with
    | none => rfl
    | some r => exact ih r.1 r.2

theorem exec?_single (i : Instr) (st : List (Held V)) (m : M) :
    I.exec? [i] st m = I.step? i st m := by
  rw [exec?]
  cases I.step? i st m <;> rfl

/-- Code that pushes the value of a computation, if it has a type other than `void`, and otherwise
does what the computation does. -/
def Computes (c : List Instr) (t : Ty) (f : StateM M V) : Prop :=
  ∀ st m, I.exec? c st m = some (push t (f m).1 st, (f m).2)

/-- Code that leaves the stack as it was and does what a computation does. -/
def Performs (c : List Instr) (f : StateM M V) : Prop :=
  ∀ st m, I.exec? c st m = some (st, (f m).2)

def ComputesAll (c : List Instr) (f : StateM M (List V)) : Prop :=
  ∀ st m, I.exec? c st m = some ((f m).1.reverse.map value ++ st, (f m).2)

variable {I} {c d : List Instr} {t src dst : Ty} {f g : StateM M V}

theorem Computes.value (h : I.Computes c t f) (ht : t ≠ .void) (st : List (Held V)) (m : M) :
    I.exec? c st m = some (.value (f m).1 :: st, (f m).2) := by
  rw [h st m, push_value ht]

theorem Computes.andThen (h : I.Computes c t f) (ht : t ≠ .void) (d : List Instr)
    (st : List (Held V)) (m : M) :
    I.exec? (c ++ d) st m = I.exec? d (.value (f m).1 :: st) (f m).2 := by
  rw [exec?_append, h.value ht]
  rfl

theorem exec?_coerce (h : Ty.coercible dst src = true) (a : V) (st : List (Held V)) (m : M) :
    I.exec? (coerce src dst) (.value a :: st) m = some (.value (I.convert src dst a) :: st, m) := by
  have hDst := (Ty.ne_void_of_coercible h).1
  unfold coerce convert
  by_cases hSame : src = dst
  · simp [hSame]
  · by_cases hList : dst = .list
    · subst hList
      simp [hSame, exec?, step?, values?]
    · simp [hSame, hDst, hList, exec?, step?]

theorem Computes.convert (hc : I.Computes c src f) (h : Ty.coercible dst src = true) :
    I.Computes (c ++ coerce src dst) dst (I.convert src dst <$> f) := by
  obtain ⟨hDst, hSrc⟩ := Ty.ne_void_of_coercible h
  intro st m
  rw [hc.andThen hSrc, exec?_coerce h, push_value hDst]
  rfl

theorem computes_const {v : Value} (h : v.ty = t) :
    I.Computes [.pushConst v] t (pure (I.const v)) := by
  intro st m
  rw [exec?_single, ← h]
  rfl

theorem Computes.unary {op : Operator} (hc : I.Computes c src f) (hSrc : src ≠ .void)
    (ht : t ≠ .void) : I.Computes (c ++ [Instr.unary op src]) t (I.unary op src <$> f) := by
  intro st m
  rw [hc.andThen hSrc, exec?_single, push_value ht]
  rfl

theorem Computes.binary (op : Operator) {l r : Ty} (hc : I.Computes c l f) (hd : I.Computes d r g)
    (hl : l ≠ .void) (hr : r ≠ .void) (ht : t ≠ .void) :
    I.Computes (c ++ d ++ [Instr.binary op l r]) t (do
      let a ← f
      let b ← g
      return I.binary op l r a b) := by
  intro st m
  rw [List.append_assoc, hc.andThen hl, hd.andThen hr, exec?_single, push_value ht]
  rfl

theorem Computes.vector {cx cy cz : List Instr} {fx fy fz : StateM M V}
    (hx : I.Computes cx .float fx) (hy : I.Computes cy .float fy) (hz : I.Computes cz .float fz) :
    I.Computes (cx ++ cy ++ cz ++ [Instr.build .vector]) .vector (do
      let a ← fx
      let b ← fy
      let c ← fz
      return I.vector a b c) := by
  intro st m
  rw [List.append_assoc, List.append_assoc, hx.andThen (by simp), hy.andThen (by simp),
    hz.andThen (by simp), exec?_single]
  rfl

theorem Computes.rotation {cx cy cz cs : List Instr} {fx fy fz fs : StateM M V}
    (hx : I.Computes cx .float fx) (hy : I.Computes cy .float fy) (hz : I.Computes cz .float fz)
    (hs : I.Computes cs .float fs) :
    I.Computes (cx ++ cy ++ cz ++ cs ++ [Instr.build .rotation]) .rotation (do
      let a ← fx
      let b ← fy
      let c ← fz
      let d ← fs
      return I.rotation a b c d) := by
  intro st m
  rw [List.append_assoc, List.append_assoc, List.append_assoc, hx.andThen (by simp),
    hy.andThen (by simp), hz.andThen (by simp), hs.andThen (by simp), exec?_single]
  rfl

section access

variable (e : Surroundings) {v : Ident} {s : Symbol}

theorem read_state (m : M) : (I.read e v m).2 = m := by
  unfold read
  split <;> rfl

theorem computes_load (h : v.entry = some s) : I.Computes [e.loadInstr v s] v.ty (I.read e v) := by
  intro st m
  rw [exec?_single]
  by_cases hKind : s.kind = .global
  · simp [Surroundings.loadInstr, Surroundings.place, read, step?, h, hKind]
  · have hLocal : (s.kind == .global) = false := by simpa using hKind
    simp [Surroundings.loadInstr, Surroundings.place, read, step?, h, hKind, hLocal]

theorem Computes.store (keep : Bool) (hc : I.Computes c v.ty f) (hv : v.ty ≠ .void)
    (h : v.entry = some s) (st : List (Held V)) (m : M) :
    I.exec? (c ++ [e.storeInstr v s keep]) st m =
      some (if keep then .value ((f >>= I.write e v) m).1 :: st else st,
        ((f >>= I.write e v) m).2) := by
  have hWrite : ∀ a m, I.write e v a m = (a, I.save (e.place s) v.ty v.member a m) := by
    intro a m
    simp [write, h]
  rw [hc.andThen hv, exec?_single]
  change _ = some (if keep then .value (I.write e v (f m).1 (f m).2).1 :: st else st,
    (I.write e v (f m).1 (f m).2).2)
  rw [hWrite]
  rfl

end access

end Interpretation

end Lsl
