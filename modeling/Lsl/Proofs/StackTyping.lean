import Lsl.Proofs.Programs

/-! An abstract stack of types. Each instruction takes the operands it names from the top of the stack
and leaves the types of its results. Operators and conversions work on values only, and where the names of a
script have types of the language, so have its expressions. -/
namespace Lsl

variable {source target t la ra : Ty} {op : Operator} {p : Pos} {x y z s : Expr} {es : List Expr}

variable {dst src : Ty} {v : Ident} {cs : Constants}

/-- Whether variables may have the type: it is one of the language and not `void`. -/
def Ty.isValue (t : Ty) : Bool := t.isKnown && t != .void

/-- What stands in one place of the abstract stack. -/
inductive Cell where
  /-- A value. -/
  | value (t : Ty)
  /-- The room for the result of a call that has begun. -/
  | slot (t : Ty)
  /-- The saved frame of a call that has begun. -/
  | mark
deriving DecidableEq

/-- The stack after a value is pushed. There are no values of type `void`. -/
def pushed (t : Ty) (st : List Cell) : List Cell := if t = .void then st else .value t :: st

def take? (t : Ty) : List Cell → Option (List Cell)
  | .value s :: st => if s = t then some st else none
  | _ => none

/-- Takes values from the top, the topmost first. -/
def takeAll? : List Ty → List Cell → Option (List Cell)
  | [], st => some st
  | t :: ts, st => (take? t st).bind (takeAll? ts)

/-- Takes a number of values that may be elements of a list. -/
def takeElements? : Nat → List Cell → Option (List Cell)
  | 0, st => some st
  | n + 1, .value t :: st => if t = .list then none else takeElements? n st
  | _, _ => none

/-- Takes the frame and the room for a result of a call, and leaves the result. -/
def returned? (t : Ty) : List Cell → Option (List Cell)
  | .mark :: .slot s :: st => if s = t then some (pushed t st) else none
  | _ => none

def onEmpty? : List Cell → Option (List Cell)
  | [] => some []
  | _ => none

/-- What an instruction of a body with the given result does to the stack, if it finds there the
operands that it names. -/
def Instr.effect? (result : Ty) (i : Instr) (st : List Cell) : Option (List Cell) :=
  match i with
  | .nop => some st
  | .pushConst v => some (pushed v.ty st)
  | .pushEmpty t | .pushLocal t _ _ | .pushGlobal t _ _ => some (pushed t st)
  | .store _ t _ _ keep => (take? t st).map fun rest => if keep then st else rest
  | .pop t | .print t => take? t st
  | .unary op t => (take? t st).bind fun rest => (op.unaryResult? t).map (pushed · rest)
  | .binary op l r =>
    (takeAll? [r, l] st).bind fun rest => (op.binaryResult? l r).map (pushed · rest)
  | .cast s t =>
    (take? s st).bind fun rest => if Ty.castable s t then some (pushed t rest) else none
  | .toList n => if n < 0 then none else (takeElements? n.toNat st).map (pushed .list)
  | .build t =>
    match t with
    | .vector => (takeAll? [.float, .float, .float] st).map (pushed t)
    | .rotation => (takeAll? [.float, .float, .float, .float] st).map (pushed t)
    | _ => none
  | .callBegin t => some (.mark :: .slot t :: st)
  | .call c => (takeAll? c.params.reverse st).bind (returned? c.result)
  | .returnValue t => if t = result then take? t st else none
  | .label _ | .jump _ | .enterFrame _ | .unwind _ | .ret | .state .. => onEmpty? st
  | .jumpIf t _ | .jumpNot t _ => (take? t st).bind onEmpty?
  | .unknown _ => none

def effects? (result : Ty) : List Instr → List Cell → Option (List Cell)
  | [], st => some st
  | i :: c, st => (i.effect? result st).bind (effects? result c)

def Leads (result : Ty) (c : List Instr) (st st' : List Cell) : Prop := effects? result c st = some st'

namespace Leads

variable {result : Ty} {c c' : List Instr} {st st' st'' : List Cell}

theorem nil : Leads result [] st st := rfl

theorem single {i : Instr} (h : i.effect? result st = some st') : Leads result [i] st st' := by
  simp [Leads, effects?, h]

theorem append (h : Leads result c st st') (h' : Leads result c' st' st'') :
    Leads result (c ++ c') st st'' := by
  induction c generalizing st with
  | nil =>
    cases h
    exact h'
  | cons i c ih =>
    unfold Leads effects? at h
    obtain ⟨st₁, hi, hc⟩ := Option.bind_eq_some_iff.mp h
    unfold Leads
    rw [List.cons_append, effects?, hi]
    exact ih hc

/-- What stands in the middle of code that leads somewhere finds its operands there. -/
theorem split (h : Leads result (c ++ c') st st'') :
    ∃ st', Leads result c st st' ∧ Leads result c' st' st'' := by
  induction c generalizing st with
  | nil => exact ⟨st, rfl, h⟩
  | cons i c ih =>
    unfold Leads at h
    rw [List.cons_append, effects?] at h
    obtain ⟨st₁, hi, hc⟩ := Option.bind_eq_some_iff.mp h
    obtain ⟨st', hFirst, hSecond⟩ := ih hc
    refine ⟨st', ?_, hSecond⟩
    unfold Leads
    rw [effects?, hi]
    exact hFirst

end Leads

@[simp] theorem take?_value (t : Ty) (st : List Cell) : take? t (.value t :: st) = some st := by
  simp [take?]

theorem pushed_value (h : t ≠ .void) (st : List Cell) : pushed t st = .value t :: st := by
  simp [pushed, h]

@[simp] theorem pushed_void (st : List Cell) : pushed .void st = st := rfl

theorem takeAll?_values (ts : List Ty) (st : List Cell) :
    takeAll? ts (ts.map .value ++ st) = some st := by
  induction ts with
  | nil => rfl
  | cons t ts ih => simpa [takeAll?] using ih

theorem takeElements?_values {ts : List Ty} (h : ∀ t ∈ ts, t ≠ .list) (st : List Cell) :
    takeElements? ts.length (ts.map .value ++ st) = some st := by
  induction ts with
  | nil => rfl
  | cons t ts ih =>
    simp only [List.mem_cons, forall_eq_or_imp] at h
    simpa [takeElements?, h.1] using ih h.2

namespace Ty

theorem isValue_iff : t.isValue = true ↔ t.isKnown = true ∧ t ≠ .void := by
  simp [isValue]

theorem coercible_self (h : t ≠ .void) : coercible t t = true := by
  simp [coercible, assignable, h]

theorem coercible_of_assignable (h : assignable dst src = true) : coercible dst src = true := by
  simp [coercible, h]

/-- Only values convert, and only to values. -/
theorem ne_void_of_coercible (h : coercible dst src = true) : dst ≠ .void ∧ src ≠ .void := by
  constructor
  · rintro rfl
    simp [coercible, assignable] at h
  · rintro rfl
    simp [coercible, assignable] at h

/-- An implicit conversion that is no list is one that may also be written. -/
theorem castable_of_coercible (hKnown : src.isKnown = true) (hNe : src ≠ dst)
    (hList : dst ≠ .list) (h : coercible dst src = true) : castable src dst = true := by
  cases src <;> cases dst <;> simp_all [coercible, assignable, castable, isKnown]

theorem isKnown_of_castable (h : castable source target = true) :
    target.isKnown = true := by
  cases target with
  | unknown n => cases source <;> simp [castable] at h
  | _ => rfl

theorem castable_ne_void (h : castable source target = true) :
    source ≠ .void ∧ target ≠ .void := by
  constructor
  · rintro rfl
    cases h
  · rintro rfl
    cases source <;> simp [castable] at h

end Ty

namespace Operator

theorem numericResult?_isValue {l r : Ty} (h : numericResult? l r = some t) :
    t.isValue = true ∧ l ≠ .void ∧ r ≠ .void := by
  unfold numericResult? at h
  split at h <;> cases h <;> simp [Ty.isValue, Ty.isKnown]

theorem orderResult?_isValue {l r : Ty} (h : orderResult? l r = some t) :
    t.isValue = true ∧ l ≠ .void ∧ r ≠ .void := by
  obtain ⟨u, hu, rfl⟩ := Option.map_eq_some_iff.mp h
  exact ⟨rfl, (numericResult?_isValue hu).2⟩

theorem integerResult?_isValue {l r : Ty} (h : integerResult? l r = some t) :
    t.isValue = true ∧ l ≠ .void ∧ r ≠ .void := by
  unfold integerResult? at h
  split at h <;> cases h
  simp [Ty.isValue, Ty.isKnown]

theorem equalityResult?_isValue {l r : Ty} (h : equalityResult? l r = some t) :
    t.isValue = true ∧ l ≠ .void ∧ r ≠ .void := by
  unfold equalityResult? at h
  split at h
  case h_8 => exact orderResult?_isValue h
  all_goals
    cases h
    simp [Ty.isValue, Ty.isKnown]

/-- An operation on two operands gives a type of the language and takes values only. -/
theorem binaryResult?_isValue {l r : Ty} (h : op.binaryResult? l r = some t) :
    t.isValue = true ∧ l ≠ .void ∧ r ≠ .void := by
  cases op with
  | add =>
    simp only [binaryResult?] at h
    split at h
    case h_4 =>
      obtain ⟨hTy, hList⟩ := Option.ite_none_right_eq_some.mp h
      cases hList
      exact ⟨rfl, by simp, hTy.1⟩
    case h_5 =>
      obtain ⟨hTy, hList⟩ := Option.ite_none_right_eq_some.mp h
      cases hList
      exact ⟨rfl, hTy.1, by simp⟩
    case h_6 => exact numericResult?_isValue h
    all_goals
      cases h
      simp [Ty.isValue, Ty.isKnown]
  | sub | mul | div =>
    simp only [binaryResult?] at h
    split at h <;> first | exact numericResult?_isValue h | (cases h; simp [Ty.isValue, Ty.isKnown])
  | mod =>
    simp only [binaryResult?] at h
    split at h
    · cases h
      simp [Ty.isValue, Ty.isKnown]
    · exact integerResult?_isValue h
  | eq | neq => exact equalityResult?_isValue h
  | leq | geq | less | greater => exact orderResult?_isValue h
  | bitAnd | bitOr | bitXor | boolAnd | boolOr | shl | shr => exact integerResult?_isValue h
  | none | neg | bitNot | boolNot | unknown => cases h

theorem unaryResult?_isValue {u : Ty} (h : op.unaryResult? t = some u) :
    u.isValue = true ∧ t ≠ .void := by
  unfold unaryResult? at h
  split at h <;> cases h <;> simp [Ty.isValue, Ty.isKnown]

/-- Operands keep their type or become floats. -/
theorem promote_coercible {l r : Ty} (h : op.promote l r = (la, ra)) (hl : l ≠ .void) (hr : r ≠ .void) :
    Ty.coercible la l = true ∧ Ty.coercible ra r = true := by
  unfold promote at h
  split at h
  · cases h; decide
  · cases h; decide
  · split at h <;> cases h <;> decide
  · split at h <;> cases h <;> decide
  · cases h
    exact ⟨Ty.coercible_self hl, Ty.coercible_self hr⟩

/-- Promotion of the operands does not change the result. -/
theorem binaryResult?_promote {l r : Ty} (h : op.promote l r = (la, ra)) :
    op.binaryResult? la ra = op.binaryResult? l r := by
  unfold promote at h
  split at h
  · cases h; cases op <;> rfl
  · cases h; cases op <;> rfl
  · split at h
    · rename_i hOp
      cases h
      rcases hOp with rfl | rfl <;> rfl
    · cases h; rfl
  · split at h
    · rename_i hOp
      cases h
      subst hOp
      rfl
    · cases h; rfl
  · cases h; rfl

end Operator

/-- Names whose types are of the language: variables hold values, and functions return one of the
eight types. -/
def Note.Valued : Note → Prop
  | .declares .local ty _ => ty.isValue = true
  | .uses .local (some s) => s.ty.isValue = true
  | .uses .function (some s) => s.ty.isKnown = true
  | _ => True

theorem Ident.Ruled.isValue (h : v.Ruled) (hValued : Note.Valued (.uses .local v.entry)) :
    v.ty.isValue = true := by
  obtain ⟨s, hs, ⟨_, hTy⟩ | ⟨_, _, hTy⟩⟩ := h
  · rw [hs] at hValued
    rw [hTy]
    exact hValued
  · rw [hTy]
    rfl

namespace Expr

def Valued (x : Expr) : Prop := ∀ n ∈ x.notes, n.Valued

section parts

variable {l r : Expr}

theorem valued_vector : (vector p x y z t).Valued ↔ x.Valued ∧ y.Valued ∧ z.Valued := by
  simp [Valued, notes, or_imp, forall_and]

theorem valued_rotation :
    (rotation p x y z s t).Valued ↔ x.Valued ∧ y.Valued ∧ z.Valued ∧ s.Valued := by
  simp [Valued, notes, or_imp, forall_and]

theorem valued_list : (list p es t).Valued ↔ ∀ e ∈ es, e.Valued := by
  simp only [Valued, notes, forall_mem_notesAll]

theorem valued_binary : (binary p op l r la ra t).Valued ↔ l.Valued ∧ r.Valued := by
  simp [Valued, notes, or_imp, forall_and]

theorem valued_assign : (assign p op (some v) x la ra t).Valued ↔
    x.Valued ∧ Note.Valued (.uses .local v.entry) := by
  simp [Valued, notes, targetNotes, or_imp, forall_and]

theorem valued_assigned {v : Option Ident} (h : (assign p op v x la ra t).Valued) : x.Valued :=
  fun n hn => h n (List.mem_append_left _ hn)

theorem valued_incDec {d b : Bool} : (incDec p d b (some v) t).Valued ↔
    Note.Valued (.uses .local v.entry) := by
  simp [Valued, notes, targetNotes]

theorem valued_call {name : String} {c : Option Symbol} : (call p name es c t).Valued ↔
    (∀ e ∈ es, e.Valued) ∧ Note.Valued (.uses .function c) := by
  simp only [Valued, notes, List.mem_append, List.mem_singleton, or_imp, forall_and, forall_eq,
    forall_mem_notesAll]

end parts

/-- The type of a well-typed expression is one of the language. -/
theorem ty_isKnown (x : Expr) (hPresent : x.isMissing = false) (hTyped : x.WellTyped)
    (hValued : x.Valued) : x.ty.isKnown = true := by
  induction x with
  | missing => cases hPresent
  | int p n t => rw [show t = .integer from hTyped.ruled rfl]; rfl
  | float p n t => rw [show t = .float from hTyped.ruled rfl]; rfl
  | string p n t => rw [show t = .string from hTyped.ruled rfl]; rfl
  | vector p x y z t => rw [show t = .vector from (hTyped.ruled rfl).1]; rfl
  | rotation p x y z s t => rw [show t = .rotation from (hTyped.ruled rfl).1]; rfl
  | list p es t => rw [show t = .list from (hTyped.ruled rfl).1]; rfl
  | ident v =>
    have hValue := Ident.Ruled.isValue (hTyped.ruled rfl) (hValued _ (by simp [notes]))
    exact (Ty.isValue_iff.mp hValue).1
  | unary p op x t ih =>
    exact (Ty.isValue_iff.mp (Operator.unaryResult?_isValue (hTyped.ruled rfl).2).1).1
  | binary p op l r la ra t ihl ihr =>
    obtain ⟨_, _, hResult, _⟩ := hTyped.ruled rfl
    exact (Ty.isValue_iff.mp (Operator.binaryResult?_isValue hResult).1).1
  | assign p op v x la ra t ih =>
    obtain ⟨_, w, rfl, hRuled, _, _, rfl⟩ := hTyped.ruled rfl
    exact (Ty.isValue_iff.mp (hRuled.isValue (valued_assign.mp hValued).2)).1
  | incDec p d b v t =>
    obtain ⟨w, rfl, hRuled, _, rfl⟩ := hTyped.ruled rfl
    exact (Ty.isValue_iff.mp (hRuled.isValue (valued_incDec.mp hValued))).1
  | cast p target x t ih =>
    obtain ⟨_, hCast, rfl⟩ := hTyped.ruled rfl
    exact Ty.isKnown_of_castable hCast
  | call p name args c t ih =>
    obtain ⟨_, sym, rfl, _, rfl⟩ := hTyped.ruled rfl
    exact (valued_call.mp hValued).2
  | paren p x t ih =>
    obtain ⟨⟨px, rfl⟩, hx⟩ := wellTyped_paren.mp hTyped
    exact ih px hx hValued
  | print p x t ih => rw [show t = .void from (hTyped.ruled rfl).2.2]; rfl

theorem folded_vector {v : Value} (h : (vector p x y z t).fold cs = some v) : v.ty = .vector := by
  simp only [fold, Option.bind_eq_bind, Option.bind_eq_some_iff] at h
  obtain ⟨_, _, _, _, _, _, hv⟩ := h
  cases hv
  rfl

theorem folded_rotation {v : Value} (h : (rotation p x y z s t).fold cs = some v) : v.ty = .rotation := by
  simp only [fold, Option.bind_eq_bind, Option.bind_eq_some_iff] at h
  obtain ⟨_, _, _, _, _, _, _, _, hv⟩ := h
  cases hv
  rfl

theorem folded_list {v : Value} (h : (list p es t).fold cs = some v) : v.ty = .list := by
  obtain ⟨_, _, rfl⟩ := Option.map_eq_some_iff.mp h
  rfl

theorem one_ty (h : t = .integer ∨ t = .float) : (one t).ty = t := by
  rcases h with rfl | rfl <;> rfl

theorem step_result (h : t = .integer ∨ t = .float) (d : Bool) :
    (if d then Operator.sub else .add).binaryResult? t t = some t := by
  rcases h with rfl | rfl <;> cases d <;> rfl

end Expr
end Lsl
