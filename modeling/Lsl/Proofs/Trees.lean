import Lsl.Analysis.Layout
import Lsl.Script.Expressions

/-! Proofs over trees. Expressions and statements keep children in lists, so each gets an induction
principle of its own. Beside it stand two views of an annotated tree: the symbols that the analyses
noted in it, and the scopes that they left there. -/
namespace Lsl

open List

variable {es : List Expr} {y x : Expr} {p : Pos} {t : Ty} {ss : List Stmt}

namespace Expr

/-- Induction over expressions. The parts of a list or call are reached by membership. -/
@[elab_as_elim, induction_eliminator]
theorem recursion {motive : Expr → Prop}
    (missing : motive missing)
    (int : ∀ p n t, motive (int p n t))
    (float : ∀ p x t, motive (float p x t))
    (string : ∀ p s t, motive (string p s t))
    (vector : ∀ p x y z t, motive x → motive y → motive z → motive (vector p x y z t))
    (rotation : ∀ p x y z s t, motive x → motive y → motive z → motive s →
      motive (rotation p x y z s t))
    (list : ∀ p es t, (∀ e ∈ es, motive e) → motive (list p es t))
    (ident : ∀ v, motive (ident v))
    (unary : ∀ p op x t, motive x → motive (unary p op x t))
    (binary : ∀ p op l r la ra t, motive l → motive r → motive (binary p op l r la ra t))
    (assign : ∀ p op v x la ra t, motive x → motive (assign p op v x la ra t))
    (incDec : ∀ p d b v t, motive (incDec p d b v t))
    (cast : ∀ p target x t, motive x → motive (cast p target x t))
    (call : ∀ p name args c t, (∀ e ∈ args, motive e) → motive (call p name args c t))
    (paren : ∀ p x t, motive x → motive (paren p x t))
    (print : ∀ p x t, motive x → motive (print p x t)) (x : Expr) : motive x := by
  refine @Expr.rec motive (fun es => ∀ e ∈ es, motive e) missing int float string vector rotation list
    ident unary
    binary assign incDec cast call paren print ?_ (fun e es he hes => ?_) x
  · exact fun e he => absurd he not_mem_nil
  · exact List.forall_mem_cons.mpr ⟨he, hes⟩

theorem missing_or_present (x : Expr) : x = missing ∨ x.isMissing = false := by
  cases x <;> simp [isMissing]

end Expr

namespace Stmt

/-- Induction over statements. The statements of a block are reached by membership. -/
@[elab_as_elim, induction_eliminator]
theorem recursion {motive : Stmt → Prop}
    (missing : motive missing)
    (block : ∀ p scope ss, (∀ s ∈ ss, motive s) → motive (block p scope ss))
    (expr : ∀ p x, motive (expr p x))
    (decl : ∀ p name ty init entry, motive (decl p name ty init entry))
    (ifThen : ∀ p c ts t es e, motive t → motive e → motive (ifThen p c ts t es e))
    (whileLoop : ∀ p c bs b, motive b → motive (.while p c bs b))
    (doWhile : ∀ p bs b c, motive b → motive (doWhile p bs b c))
    (forLoop : ∀ p init c step bs b, motive b → motive (.for p init c step bs b))
    (jump : ∀ p l entry, motive (jump p l entry))
    (label : ∀ p name entry, motive (label p name entry))
    (ret : ∀ p v, motive (ret p v))
    (goto : ∀ p s entry, motive (goto p s entry))
    (empty : ∀ p, motive (empty p)) (s : Stmt) : motive s := by
  refine @Stmt.rec motive (fun ss => ∀ s ∈ ss, motive s) missing block expr decl ifThen whileLoop
    doWhile forLoop jump
    label ret goto empty ?_ (fun s ss hs hss => ?_) s
  · exact fun s hs => absurd hs not_mem_nil
  · exact List.forall_mem_cons.mpr ⟨hs, hss⟩

mutual

def parts : Stmt → List Stmt
  | missing => []
  | block p scope ss => block p scope ss :: partsAll ss
  | ifThen p c ts t es e => ifThen p c ts t es e :: parts t ++ parts e
  | .while p c bs b => .while p c bs b :: parts b
  | doWhile p bs b c => doWhile p bs b c :: parts b
  | .for p init c step bs b => .for p init c step bs b :: parts b
  | s => [s]

def partsAll : List Stmt → List Stmt
  | [] => []
  | s :: ss => parts s ++ partsAll ss

end

theorem missing_or_present (s : Stmt) : s = missing ∨ s.isMissing = false := by
  cases s <;> simp [isMissing]

end Stmt

/-- A symbol noted in a tree: where a name of a kind is declared with a type, or where a name is used
in the place of a kind. -/
inductive Note where
  | declares (kind : SymbolKind) (ty : Ty) (entry : Option Symbol)
  | uses (want : SymbolKind) (entry : Option Symbol)

namespace Note

def symbol? : Note → Option Symbol
  | declares _ _ entry => entry
  | uses _ entry => entry

def declared? : Note → Option Symbol
  | declares _ _ entry => entry
  | uses .. => none

def label? : Note → Option Symbol
  | declares .label _ entry => entry
  | _ => none

end Note

def declaredIn (notes : List Note) : List Symbol := notes.filterMap Note.declared?

def labelsIn (notes : List Note) : List Symbol := notes.filterMap Note.label?

@[simp] theorem declaredIn_append (m n : List Note) :
    declaredIn (m ++ n) = declaredIn m ++ declaredIn n := filterMap_append ..

@[simp] theorem labelsIn_append (m n : List Note) :
    labelsIn (m ++ n) = labelsIn m ++ labelsIn n := filterMap_append ..

theorem mem_declaredIn {notes : List Note} {s : Symbol} :
    s ∈ declaredIn notes ↔ ∃ kind ty, Note.declares kind ty (some s) ∈ notes := by
  constructor
  · intro h
    obtain ⟨n, hn, hs⟩ := List.mem_filterMap.mp h
    cases n with
    | declares kind ty entry => cases hs; exact ⟨kind, ty, hn⟩
    | uses want entry => cases hs
  · rintro ⟨kind, ty, h⟩
    exact List.mem_filterMap.mpr ⟨_, h, rfl⟩

theorem mem_labelsIn {notes : List Note} {s : Symbol} :
    s ∈ labelsIn notes ↔ ∃ ty, Note.declares .label ty (some s) ∈ notes := by
  constructor
  · intro h
    obtain ⟨n, hn, hs⟩ := List.mem_filterMap.mp h
    cases n with
    | declares kind ty entry =>
      cases kind with
      | label => cases hs; exact ⟨ty, hn⟩
      | _ => cases hs
    | uses want entry => cases hs
  · rintro ⟨ty, h⟩
    exact List.mem_filterMap.mpr ⟨_, h, rfl⟩

theorem labelsIn_eq_nil {notes : List Note} (h : ∀ ty s, .declares .label ty (some s) ∉ notes) :
    labelsIn notes = [] := by
  refine List.eq_nil_iff_forall_not_mem.mpr fun s hs => ?_
  obtain ⟨ty, hMem⟩ := mem_labelsIn.mp hs
  exact h ty s hMem

namespace Expr

def targetNotes (v : Option Ident) : List Note :=
  (v.map fun v => Note.uses .local v.entry).toList

mutual

def notes : Expr → List Note
  | missing | int .. | float .. | string .. => []
  | vector _ x y z _ => notes x ++ notes y ++ notes z
  | rotation _ x y z s _ => notes x ++ notes y ++ notes z ++ notes s
  | list _ es _ => notesAll es
  | ident v => [.uses .local v.entry]
  | unary _ _ x _ => notes x
  | binary _ _ l r _ _ _ => notes l ++ notes r
  | assign _ _ v x _ _ _ => notes x ++ targetNotes v
  | incDec _ _ _ v _ => targetNotes v
  | cast _ _ x _ => notes x
  | call _ _ args c _ => notesAll args ++ [.uses .function c]
  | paren _ x _ => notes x
  | print _ x _ => notes x

def notesAll : List Expr → List Note
  | [] => []
  | e :: es => notes e ++ notesAll es

end

attribute [local simp] notes notesAll partsAll

theorem mem_notesAll {n : Note} : n ∈ notesAll es ↔ ∃ e ∈ es, n ∈ e.notes := by
  induction es with
  | nil => simp
  | cons e es ih => simp [ih]

theorem mem_partsAll : y ∈ partsAll es ↔ ∃ e ∈ es, y ∈ e.parts := by
  induction es with
  | nil => simp
  | cons e es ih => simp [ih]

theorem forall_mem_notesAll {P : Note → Prop} : (∀ n ∈ notesAll es, P n) ↔ ∀ e ∈ es,
    ∀ n ∈ e.notes, P n := by
  induction es with
  | nil => simp
  | cons e es ih => simp [or_imp, forall_and, ih]

theorem forall_mem_partsAll {P : Expr → Prop} : (∀ y ∈ partsAll es, P y) ↔ ∀ e ∈ es,
    ∀ y ∈ e.parts, P y := by
  induction es with
  | nil => simp
  | cons e es ih => simp [or_imp, forall_and, ih]

/-- An expression that is present is the first of its own parts. -/
theorem mem_parts_self (h : x.isMissing = false) : x ∈ x.parts := by
  cases x <;> simp_all [parts, isMissing]

/-- What is found in a part of an expression is found in the expression. -/
theorem of_mem_parts (h : y ∈ x.parts) : y.isMissing = false ∧ y.parts ⊆ x.parts ∧
    y.notes ⊆ x.notes := by
  induction x with
  | missing => simp [parts] at h
  | list p es t ih | call p name es c t ih =>
    simp only [parts, mem_cons, mem_partsAll] at h
    obtain rfl | ⟨e, he, hy⟩ := h
    · exact ⟨rfl, List.Subset.refl _, List.Subset.refl _⟩
    · obtain ⟨hPresent, hParts, hNotes⟩ := ih e he hy
      refine ⟨hPresent, fun z hz => ?_, fun n hn => ?_⟩
      · exact mem_cons_of_mem _ (mem_partsAll.mpr ⟨e, he, hParts hz⟩)
      · simp [mem_notesAll.mpr ⟨e, he, hNotes hn⟩]
  | assign p op v x la ra t ih =>
    cases v <;> simp only [parts, ofTarget, mem_cons, mem_append] at h <;>
      grind [isMissing, parts, ofTarget, notes, targetNotes]
  | incDec p d b v t =>
    cases v <;> simp only [parts, ofTarget, mem_cons] at h <;>
      grind [isMissing, parts, ofTarget, notes, targetNotes]
  | _ =>
    simp only [parts, mem_cons, mem_append] at h
    grind [isMissing, parts, notes]

theorem of_mem_partsAll (h : x ∈ partsAll es) :
    x.isMissing = false ∧ x.parts ⊆ partsAll es ∧ x.notes ⊆ notesAll es := by
  obtain ⟨e, he, hx⟩ := mem_partsAll.mp h
  obtain ⟨hPresent, hParts, hNotes⟩ := of_mem_parts hx
  exact ⟨hPresent, fun y hy => mem_partsAll.mpr ⟨e, he, hParts hy⟩,
    fun n hn => mem_notesAll.mpr ⟨e, he, hNotes hn⟩⟩

/-- A literal of a vector, rotation or list. -/
def isLiteral : Expr → Bool
  | vector .. | rotation .. | list .. => true
  | _ => false

/-- Whether a global variable is named in an expression. -/
def MentionsGlobal (x : Expr) : Prop := ∃ s, .uses .local (some s) ∈ x.notes ∧ s.kind = .global

theorem mentionsGlobal_vector {z : Expr} :
    (vector p x y z t).MentionsGlobal ↔
      x.MentionsGlobal ∨ y.MentionsGlobal ∨ z.MentionsGlobal := by
  simp [MentionsGlobal, or_and_right, exists_or]

theorem mentionsGlobal_rotation {z s : Expr} :
    (rotation p x y z s t).MentionsGlobal ↔
      x.MentionsGlobal ∨ y.MentionsGlobal ∨ z.MentionsGlobal ∨ s.MentionsGlobal := by
  simp [MentionsGlobal, or_and_right, exists_or]

theorem mentionsGlobal_list : (list p es t).MentionsGlobal ↔ ∃ x ∈ es, x.MentionsGlobal := by
  simp only [MentionsGlobal, notes, mem_notesAll]
  grind

end Expr

namespace Stmt

mutual

def notes : Stmt → List Note
  | missing | empty _ => []
  | block _ _ ss => notesAll ss
  | expr _ x => x.notes
  | decl _ _ ty init entry => init.notes ++ [.declares .local ty entry]
  | ifThen _ c _ t _ e => c.notes ++ notes t ++ notes e
  | .while _ c _ b => c.notes ++ notes b
  | doWhile _ _ b c => notes b ++ c.notes
  | .for _ init c step _ b => Expr.notesAll init ++ c.notes ++ Expr.notesAll step ++ notes b
  | jump _ _ entry => [.uses .label entry]
  | label _ _ entry => [.declares .label .void entry]
  | ret _ v => v.notes
  | goto _ _ entry => [.uses .state entry]

def notesAll : List Stmt → List Note
  | [] => []
  | s :: ss => notes s ++ notesAll ss

end

mutual

def scopes : Stmt → List Scope
  | missing | expr .. | decl .. | jump .. | label .. | ret .. | goto .. | empty _ => []
  | block _ scope ss => scope.toList ++ scopesAll ss
  | ifThen _ _ ts t es e => ts.toList ++ scopes t ++ (es.toList ++ scopes e)
  | .while _ _ bs b => bs.toList ++ scopes b
  | doWhile _ bs b _ => bs.toList ++ scopes b
  | .for _ _ _ _ bs b => bs.toList ++ scopes b

def scopesAll : List Stmt → List Scope
  | [] => []
  | s :: ss => scopes s ++ scopesAll ss

end

attribute [local simp] notesAll partsAll localsAll exprsAll

theorem mem_notesAll {n : Note} : n ∈ notesAll ss ↔ ∃ s ∈ ss, n ∈ s.notes := by
  induction ss with
  | nil => simp
  | cons s ss ih => simp [ih]

theorem mem_partsAll {t : Stmt} : t ∈ partsAll ss ↔ ∃ s ∈ ss, t ∈ s.parts := by
  induction ss with
  | nil => simp
  | cons s ss ih => simp [ih]

theorem mem_localsAll {slot : Slot} : slot ∈ localsAll ss ↔ ∃ s ∈ ss, slot ∈ s.locals := by
  induction ss with
  | nil => simp
  | cons s ss ih => simp [ih]

theorem mem_exprsAll : x ∈ exprsAll ss ↔ ∃ s ∈ ss, x ∈ s.exprs := by
  induction ss with
  | nil => simp
  | cons s ss ih => simp [ih]

/-- What is found in an expression of a statement is found in the statement. -/
theorem of_mem_exprs {s : Stmt} {x : Expr} (h : x ∈ s.exprs) :
    x.isMissing = false ∧ x.parts ⊆ s.exprs ∧ x.notes ⊆ s.notes := by
  induction s with
  | block p scope ss ih =>
    obtain ⟨s, hs, hx⟩ := mem_exprsAll.mp h
    obtain ⟨hPresent, hParts, hNotes⟩ := ih s hs hx
    exact ⟨hPresent, fun y hy => mem_exprsAll.mpr ⟨s, hs, hParts hy⟩,
      fun n hn => mem_notesAll.mpr ⟨s, hs, hNotes hn⟩⟩
  | missing | jump p l entry | label p name entry | goto p name entry | empty p =>
    simp [exprs] at h
  | _ =>
    simp only [exprs, mem_append] at h
    grind [exprs, notes, Expr.of_mem_parts, Expr.of_mem_partsAll]

/-- What is found in a part of a statement is found in the statement. -/
theorem of_mem_parts {s t : Stmt} (h : t ∈ s.parts) :
    t.parts ⊆ s.parts ∧ t.exprs ⊆ s.exprs ∧ t.notes ⊆ s.notes := by
  induction s with
  | block p scope ss ih =>
    simp only [parts, mem_cons, mem_partsAll] at h
    obtain rfl | ⟨s, hs, ht⟩ := h
    · exact ⟨List.Subset.refl _, List.Subset.refl _, List.Subset.refl _⟩
    · obtain ⟨hParts, hExprs, hNotes⟩ := ih s hs ht
      exact ⟨fun u hu => mem_cons_of_mem _ (mem_partsAll.mpr ⟨s, hs, hParts hu⟩),
        fun x hx => mem_exprsAll.mpr ⟨s, hs, hExprs hx⟩,
        fun n hn => mem_notesAll.mpr ⟨s, hs, hNotes hn⟩⟩
  | missing => simp [parts] at h
  | _ =>
    simp only [parts, mem_cons, mem_append, not_mem_nil] at h
    grind [parts, exprs, notes]

end Stmt
end Lsl
