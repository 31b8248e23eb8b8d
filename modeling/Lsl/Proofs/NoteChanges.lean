import Lsl.Proofs.NoteStages
import Lsl.Proofs.Sites

/-! Trees whose notes are changed, and nothing else. Notes can be forgotten. Every symbol carries the number
of the declaration run that made it, and these runs can be numbered anew. Both are changes of one kind, which
can be made after one another. -/
namespace Lsl

open List

variable {g : Nat → Nat}

namespace Symbol

variable {s : Symbol}

def renumber (g : Nat → Nat) (s : Symbol) : Symbol := { s with round := g s.round }

/-- A symbol of a scope after its run is numbered anew. Those of the library belong to no run. -/
def renumberVisible (g : Nat → Nat) (s : Symbol) : Symbol :=
  if s.kind = .library then s else s.renumber g

theorem renumberVisible_own (h : s.kind ≠ .library) : s.renumberVisible g = s.renumber g := if_neg h

@[simp] theorem renumberVisible_name : (s.renumberVisible g).name = s.name := by
  unfold renumberVisible; split <;> rfl

@[simp] theorem renumberVisible_kind : (s.renumberVisible g).kind = s.kind := by
  unfold renumberVisible; split <;> rfl

@[simp] theorem renumberVisible_ty : (s.renumberVisible g).ty = s.ty := by
  unfold renumberVisible; split <;> rfl

@[simp] theorem renumberVisible_params : (s.renumberVisible g).params = s.params := by
  unfold renumberVisible; split <;> rfl

theorem renumberVisible_id (s : Symbol) : s.renumberVisible id = s := ite_self s

theorem renumberVisible_renumberVisible (g g' : Nat → Nat) (s : Symbol) :
    (s.renumberVisible g).renumberVisible g' = s.renumberVisible (g' ∘ g) := by
  by_cases h : s.kind = .library
  · simp [renumberVisible, h]
  · simp [renumberVisible, renumber, h]

end Symbol

namespace Scope

/-- What is found under a name serves where it was sought and stands in one of the scopes. -/
theorem lookupKind?_mem {chain : List Scope} {name : String} {sym : Symbol} {want : SymbolKind}
    (h : lookupKind? chain name want = some sym) :
    sym.kind.serves want = true ∧ ∃ s ∈ chain, sym ∈ s.symbols := by
  obtain ⟨s, hs, hFilter⟩ := exists_of_findSome?_eq_some h
  obtain ⟨hLocal, hServes⟩ := Option.filter_eq_some_iff.mp hFilter
  exact ⟨hServes, s, hs, mem_of_find?_eq_some hLocal⟩

def renumber (g : Nat → Nat) (s : Scope) : Scope := ⟨s.symbols.map (·.renumberVisible g)⟩

theorem renumber_id (s : Scope) : s.renumber id = s := by
  simp [renumber, Symbol.renumberVisible_id]

theorem renumber_renumber (g g' : Nat → Nat) (s : Scope) :
    (s.renumber g).renumber g' = s.renumber (g' ∘ g) := by
  simp [renumber, Function.comp_def, Symbol.renumberVisible_renumberVisible]

theorem local?_renumber (s : Scope) (name : String) :
    (s.renumber g).local? name = (s.local? name).map (·.renumberVisible g) := by
  rw [local?, renumber, List.find?_map]
  congr 2
  funext sym
  simp

theorem lookupKind?_renumber (chain : List Scope) (name : String) (want : SymbolKind) :
    lookupKind? (chain.map (renumber g)) name want =
      (lookupKind? chain name want).map (·.renumberVisible g) := by
  induction chain with
  | nil => rfl
  | cons s chain ih =>
    have hHead : ((s.renumber g).local? name).filter (fun sym => sym.kind.serves want) =
        ((s.local? name).filter fun sym => sym.kind.serves want).map (·.renumberVisible g) := by
      rw [local?_renumber, Option.filter_map]
      simp [Function.comp_def]
    simp only [lookupKind?, map_cons, List.findSome?_cons, hHead] at ih ⊢
    cases (s.local? name).filter fun sym => sym.kind.serves want with
    | none => exact ih
    | some sym => rfl

/-- Where no function is sought, a symbol of the script is found. -/
theorem lookupKind?_renumber_own {want : SymbolKind} (hWant : SymbolKind.library.serves want = false)
    (chain : List Scope) (name : String) : lookupKind? (chain.map (renumber g)) name want =
      (lookupKind? chain name want).map (·.renumber g) := by
  rw [lookupKind?_renumber]
  cases hFound : lookupKind? chain name want with
  | none => rfl
  | some sym =>
    have hOwn : sym.kind ≠ .library := by
      intro hLibrary
      rw [← hLibrary, (lookupKind?_mem hFound).1] at hWant
      cases hWant
    exact congrArg some (Symbol.renumberVisible_own hOwn)

theorem declare?_renumber {sym : Symbol} (hOwn : sym.kind ≠ .library) (s : Scope) :
    (s.renumber g).declare? (sym.renumber g) = (s.declare? sym).map (·.renumber g) := by
  have hTaken := @local?_renumber g s sym.name
  have hName : (sym.renumber g).name = sym.name := rfl
  unfold declare?
  rw [hName, hTaken, Option.isSome_map]
  cases (s.local? sym.name).isSome with
  | true => rfl
  | false => simp [renumber, Symbol.renumberVisible_own hOwn]

end Scope

/-- What becomes of the notes of a tree: of the symbols of its declarations and variables, of its jumps and of
its calls, of its scopes, types and kinds of events. -/
structure Renoting where
  entry : Option Symbol → Option Symbol
  jump : Option Symbol → Option Symbol
  callee : Option Symbol → Option Symbol
  scope : Option Scope → Option Scope
  ty : Ty → Ty
  kind : EventKind → EventKind

namespace Renoting

abbrev same : Renoting where
  entry e := e
  jump e := e
  callee c := c
  scope s := s
  ty t := t
  kind k := k

/-- The notes of later stages are forgotten. -/
abbrev forget (k : Stage) : Renoting where
  entry := k.bound
  jump := k.linked
  callee := k.linked
  scope := k.bound
  ty _ := .void
  kind e := (k.bound (some e)).getD ⟨0⟩

abbrev renumber (g : Nat → Nat) : Renoting where
  entry := Option.map (·.renumber g)
  jump := Option.map (·.renumber g)
  callee := Option.map (·.renumberVisible g)
  scope := Option.map (·.renumber g)
  ty t := t
  kind k := k

instance : Coe (Nat → Nat) Renoting := ⟨renumber⟩

/-- What is left of a change after the names of a tree were declared anew, in runs that have other numbers. -/
abbrev declared (n : Renoting) (g : Nat → Nat) : Renoting :=
  { renumber g with jump := n.jump, callee := n.callee, ty := n.ty }

/-- What is left of a change after also its later names were resolved anew. -/
abbrev resolved (n : Renoting) (g : Nat → Nat) : Renoting := { renumber g with ty := n.ty }

abbrev andThen (n n' : Renoting) : Renoting where
  entry e := n'.entry (n.entry e)
  jump e := n'.jump (n.jump e)
  callee c := n'.callee (n.callee c)
  scope s := n'.scope (n.scope s)
  ty t := n'.ty (n.ty t)
  kind k := n'.kind (n.kind k)

theorem renumber_id : renumber id = same := by
  have hOwn : ∀ e : Option Symbol, e.map (·.renumber id) = e := by
    intro e
    cases e <;> rfl
  simp [funext_iff, hOwn, Symbol.renumberVisible_id, Scope.renumber_id]

theorem declared_id : (forget .raw).declared id = forget .declared := by
  rw [declared, renumber_id]
  rfl

theorem resolved_id : (forget .raw).resolved id = forget .resolved := by
  rw [resolved, renumber_id]
  rfl

theorem renumber_andThen (g g' : Nat → Nat) : (renumber g).andThen (renumber g') = renumber (g' ∘ g) := by
  simp [Function.comp_def, Symbol.renumber, Symbol.renumberVisible_renumberVisible, Scope.renumber_renumber]

end Renoting

def Ident.renote (n : Renoting) (v : Ident) : Ident := { v with entry := n.entry v.entry, ty := n.ty v.ty }

def Site.renote (n : Renoting) : Site → Site
  | gap p message => gap p message
  | ident v => ident (v.renote n)
  | callee p name c => callee p name (n.callee c)

def Note.renote (n : Renoting) : Note → Note
  | declares kind ty entry => declares kind ty (n.entry entry)
  | uses .local entry => uses .local (n.entry entry)
  | uses .function entry => uses .function (n.callee entry)
  | uses want entry => uses want (n.jump entry)

/-- The last stage keeps all notes but types. -/
theorem Note.renote_resolved : renote (.forget .resolved) = id := by
  funext m
  cases m with
  | declares => rfl
  | uses want => cases want <;> rfl

theorem Site.notes_renote {n : Renoting} (ss : List Site) :
    (ss.map (·.renote n)).filterMap note? = (ss.filterMap note?).map (·.renote n) := by
  rw [filterMap_map, map_filterMap]
  refine filterMap_congr fun s _ => ?_
  cases s <;> rfl

namespace Expr

mutual

def renote (n : Renoting) : Expr → Expr
  | missing => missing
  | int p i t => int p i (n.ty t)
  | float p x t => float p x (n.ty t)
  | string p s t => string p s (n.ty t)
  | vector p x y z t => vector p (renote n x) (renote n y) (renote n z) (n.ty t)
  | rotation p x y z s t =>
    rotation p (renote n x) (renote n y) (renote n z) (renote n s) (n.ty t)
  | list p es t => list p (renoteAll n es) (n.ty t)
  | ident v => ident (v.renote n)
  | unary p op x t => unary p op (renote n x) (n.ty t)
  | binary p op l r la ra t =>
    binary p op (renote n l) (renote n r) (n.ty la) (n.ty ra) (n.ty t)
  | assign p op v x la ra t =>
    assign p op (v.map (·.renote n)) (renote n x) (n.ty la) (n.ty ra) (n.ty t)
  | incDec p d b v t => incDec p d b (v.map (·.renote n)) (n.ty t)
  | cast p target x t => cast p target (renote n x) (n.ty t)
  | call p name args c t => call p name (renoteAll n args) (n.callee c) (n.ty t)
  | paren p x t => paren p (renote n x) (n.ty t)
  | print p x t => print p (renote n x) (n.ty t)

def renoteAll (n : Renoting) : List Expr → List Expr
  | [] => []
  | e :: es => renote n e :: renoteAll n es

end

end Expr

namespace Stmt

mutual

def renote (n : Renoting) : Stmt → Stmt
  | missing => missing
  | block p scope ss => block p (n.scope scope) (renoteAll n ss)
  | expr p x => expr p (x.renote n)
  | decl p name ty init entry => decl p name ty (init.renote n) (n.entry entry)
  | ifThen p c ts t es e =>
    ifThen p (c.renote n) (n.scope ts) (renote n t) (n.scope es) (renote n e)
  | .while p c bs b => .while p (c.renote n) (n.scope bs) (renote n b)
  | doWhile p bs b c => doWhile p (n.scope bs) (renote n b) (c.renote n)
  | .for p init c step bs b =>
    .for p (Expr.renoteAll n init) (c.renote n) (Expr.renoteAll n step) (n.scope bs) (renote n b)
  | jump p l entry => jump p l (n.jump entry)
  | label p name entry => label p name (n.entry entry)
  | ret p v => ret p (v.renote n)
  | goto p s entry => goto p s (n.jump entry)
  | empty p => empty p

def renoteAll (n : Renoting) : List Stmt → List Stmt
  | [] => []
  | s :: ss => renote n s :: renoteAll n ss

end

end Stmt

def Block.renote (n : Renoting) (b : Block) : Block :=
  { b with scope := n.scope b.scope, stmts := Stmt.renoteAll n b.stmts }

def Param.renote (n : Renoting) (p : Param) : Param := { p with entry := n.entry p.entry }

def GlobalVar.renote (n : Renoting) (v : GlobalVar) : GlobalVar :=
  { v with init := v.init.renote n, entry := n.entry v.entry }

def Function.renote (n : Renoting) (f : Function) : Function :=
  { f with params := f.params.map (·.renote n), body := f.body.map (·.renote n), entry := n.entry f.entry }

def Global.renote (n : Renoting) : Global → Global
  | .missing => .missing
  | .var v => .var (v.renote n)
  | .function f => .function (f.renote n)

def Handler.renote (n : Renoting) (h : Handler) : Handler :=
  { h with params := h.params.map (·.renote n), body := h.body.map (·.renote n), kind := n.kind h.kind
           entry := n.entry h.entry }

def State.renote (n : Renoting) (s : State) : State :=
  { s with events := s.events.map (Option.map (·.renote n)), entry := n.entry s.entry
           scope := n.scope s.scope }

def Script.renote (n : Renoting) (s : Script) : Script :=
  { s with globals := s.globals.map (·.renote n), states := s.states.map (Option.map (·.renote n))
           scope := n.scope s.scope }

attribute [local simp] Expr.renote Expr.renoteAll Stmt.renote Stmt.renoteAll

variable {n n' : Renoting} {k : Stage}

namespace Expr

theorem renoteAll_eq_map (es : List Expr) : renoteAll n es = es.map (renote n) := by
  induction es with
  | nil => rfl
  | cons e es ih => rw [renoteAll, ih, map_cons]

@[simp] theorem isMissing_renote (x : Expr) : (x.renote n).isMissing = x.isMissing := by cases x <;> rfl

@[simp] theorem pos_renote (x : Expr) : (x.renote n).pos = x.pos := by cases x <;> rfl

@[simp] theorem ty_renumber (x : Expr) : (x.renote g).ty = x.ty := by
  cases x <;> rfl

theorem renoteAll_same {es : List Expr} (h : ∀ e ∈ es, e.renote .same = e) : renoteAll .same es = es := by
  simpa [renoteAll_eq_map] using map_congr_left h

theorem renote_same (x : Expr) : x.renote .same = x := by
  induction x with
  | missing | int | float | string | ident => rfl
  | incDec p d b v t => cases v <;> rfl
  | list p es t ih | call p name es c t ih => simp only [renote, renoteAll_same ih]
  | assign p op v x la ra t ih =>
    simp only [renote, ih]
    cases v <;> rfl
  | vector | rotation | binary | unary | cast | paren | print => simp only [renote, *]

theorem renoteAll_renoteAll {es : List Expr}
    (h : ∀ e ∈ es, (e.renote n).renote n' = e.renote (n.andThen n')) :
    renoteAll n' (renoteAll n es) = renoteAll (n.andThen n') es := by
  simpa [renoteAll_eq_map] using h

theorem renote_renote (x : Expr) : (x.renote n).renote n' = x.renote (n.andThen n') := by
  induction x with
  | missing | int | float | string | ident => rfl
  | incDec p d b v t => cases v <;> rfl
  | list p es t ih | call p name es c t ih => simp only [renote, renoteAll_renoteAll ih]
  | assign p op v x la ra t ih =>
    simp only [renote, ih]
    cases v <;> rfl
  | vector | rotation | binary | unary | cast | paren | print => simp only [renote, *]

theorem forgetAll_eq {es : List Expr} (h : ∀ e ∈ es, e.forget k = e.renote (.forget k)) :
    forgetAll k es = renoteAll (.forget k) es := by
  simpa [renoteAll_eq_map, forgetAll_eq_map] using h

theorem forget_eq (x : Expr) : x.forget k = x.renote (.forget k) := by
  induction x with
  | missing | int | float | string | ident | incDec => rfl
  | list p es t ih | call p name es c t ih => simp only [forget, renote, forgetAll_eq ih]
  | assign p op v x la ra t ih =>
    simp only [forget, renote, ih]
    rfl
  | vector | rotation | binary | unary | cast | paren | print => simp only [forget, renote, *]

theorem sitesAll_renote {es : List Expr} (ih : ∀ e ∈ es, (e.renote n).sites = e.sites.map (·.renote n)) :
    sitesAll (renoteAll n es) = (sitesAll es).map (·.renote n) := by
  induction es with
  | nil => rfl
  | cons e es ihTail =>
    rw [renoteAll, sitesAll, sitesAll, map_append, ih e (by simp), ihTail fun x hx => ih x (by simp [hx])]

theorem sites_renote (x : Expr) : (x.renote n).sites = x.sites.map (·.renote n) := by
  induction x with
  | missing | int | float | string | ident => rfl
  | incDec p d b v t => cases v <;> rfl
  | list p es t ih => exact sitesAll_renote ih
  | call p name es c t ih =>
    rw [renote, sites, sites, map_append, sitesAll_renote ih]
    rfl
  | vector | rotation | binary => simp only [renote, sites, map_append, *]
  | assign p op v x la ra t ih =>
    rw [renote, sites, sites, map_append, ih]
    cases v <;> rfl
  | unary | cast | paren | print => assumption

theorem notesAll_renote (es : List Expr) : notesAll (renoteAll n es) = (notesAll es).map (·.renote n) := by
  rw [notesAll_eq, sitesAll_renote fun e _ => e.sites_renote, Site.notes_renote, notesAll_eq]

theorem notes_renote (x : Expr) : (x.renote n).notes = x.notes.map (·.renote n) := by
  rw [notes_eq, sites_renote, Site.notes_renote, notes_eq]

theorem notes_forget (x : Expr) : (x.forget .resolved).notes = x.notes := by
  rw [forget_eq, notes_renote, Note.renote_resolved, map_id]

end Expr

namespace Stmt

theorem renoteAll_eq_map (ss : List Stmt) : renoteAll n ss = ss.map (renote n) := by
  induction ss with
  | nil => rfl
  | cons s ss ih => rw [renoteAll, ih, map_cons]

@[simp] theorem isMissing_renote (s : Stmt) : (s.renote n).isMissing = s.isMissing := by cases s <;> rfl

theorem renoteAll_same {ss : List Stmt} (h : ∀ s ∈ ss, s.renote .same = s) : renoteAll .same ss = ss := by
  simpa [renoteAll_eq_map] using map_congr_left h

theorem renote_same (s : Stmt) : s.renote .same = s := by
  have hExprs := fun es => @Expr.renoteAll_same es fun e _ => e.renote_same
  induction s with
  | missing | jump | label | goto | empty => rfl
  | block p scope ss ih => simp only [renote, renoteAll_same ih]
  | expr p x | ret p x | decl p name ty x entry => simp only [renote, Expr.renote_same]
  | ifThen | whileLoop | doWhile | forLoop => simp only [renote, Expr.renote_same, *]

theorem renoteAll_renoteAll {ss : List Stmt}
    (h : ∀ s ∈ ss, (s.renote n).renote n' = s.renote (n.andThen n')) :
    renoteAll n' (renoteAll n ss) = renoteAll (n.andThen n') ss := by
  simpa [renoteAll_eq_map] using h

theorem renote_renote (s : Stmt) : (s.renote n).renote n' = s.renote (n.andThen n') := by
  have hExprs := fun es => @Expr.renoteAll_renoteAll n n' es fun e _ => e.renote_renote
  induction s with
  | missing | jump | label | goto | empty => rfl
  | block p scope ss ih => simp only [renote, renoteAll_renoteAll ih]
  | expr p x | ret p x | decl p name ty x entry => simp only [renote, Expr.renote_renote]
  | ifThen | whileLoop | doWhile | forLoop => simp only [renote, Expr.renote_renote, *]

theorem forgetAll_eq {ss : List Stmt} (h : ∀ s ∈ ss, s.forget k = s.renote (.forget k)) :
    forgetAll k ss = renoteAll (.forget k) ss := by
  induction ss with
  | nil => rfl
  | cons s ss ih => rw [forgetAll, renoteAll, h s (by simp), ih fun t ht => h t (by simp [ht])]

theorem forget_eq (s : Stmt) : s.forget k = s.renote (.forget k) := by
  have hExprs := fun es => @Expr.forgetAll_eq k es fun e _ => e.forget_eq
  induction s with
  | missing | jump | label | goto | empty => rfl
  | block p scope ss ih => simp only [forget, renote, forgetAll_eq ih]
  | expr p x | ret p x | decl p name ty x entry => simp only [forget, renote, Expr.forget_eq]
  | ifThen | whileLoop | doWhile | forLoop => simp only [forget, renote, Expr.forget_eq, *]

theorem localsAll_renote {ss : List Stmt} (h : ∀ s ∈ ss, (s.renote n).locals = s.locals) :
    localsAll (renoteAll n ss) = localsAll ss := by
  induction ss with
  | nil => rfl
  | cons s ss ih => simp only [renoteAll, localsAll, h s (by simp), ih fun t ht => h t (by simp [ht])]

theorem locals_renote (s : Stmt) : (s.renote n).locals = s.locals := by
  induction s with
  | block p scope ss ih => exact localsAll_renote ih
  | ifThen p c ts t es e iht ihe => simp only [renote, locals, iht, ihe]
  | whileLoop | doWhile | forLoop => assumption
  | _ => rfl

/-- The variables of a frame are supplied by its reader. -/
theorem localsAll_of_forget {ss ss' : List Stmt} (h : forgetAll k ss' = forgetAll k ss) :
    localsAll ss' = localsAll ss := by
  have hLocals : ∀ ss, localsAll (forgetAll k ss) = localsAll ss := fun ss => by
    rw [forgetAll_eq fun s _ => s.forget_eq, localsAll_renote fun s _ => s.locals_renote]
  rw [← hLocals, h, hLocals]

theorem notesAll_renote {ss : List Stmt} (ih : ∀ s ∈ ss, (s.renote n).notes = s.notes.map (·.renote n)) :
    notesAll (renoteAll n ss) = (notesAll ss).map (·.renote n) := by
  induction ss with
  | nil => rfl
  | cons s ss ihTail =>
    rw [renoteAll, notesAll, notesAll, map_append, ih s (by simp), ihTail fun x hx => ih x (by simp [hx])]

theorem notes_renote (s : Stmt) : (s.renote n).notes = s.notes.map (·.renote n) := by
  induction s with
  | missing | jump | label | goto | empty => rfl
  | block p scope ss ih => exact notesAll_renote ih
  | expr p x | ret p x => exact x.notes_renote
  | decl p name ty init entry =>
    rw [renote, notes, notes, Expr.notes_renote, map_append]
    rfl
  | ifThen | whileLoop | doWhile | forLoop =>
    simp only [renote, notes, Expr.notes_renote, Expr.notesAll_renote, map_append, *]

theorem notesAll_forget (ss : List Stmt) : notesAll (forgetAll .resolved ss) = notesAll ss := by
  rw [forgetAll_eq fun s _ => s.forget_eq, notesAll_renote fun s _ => s.notes_renote, Note.renote_resolved,
    map_id]

end Stmt

namespace Script

theorem renote_same (s : Script) : s.renote .same = s := by
  have hBody : ∀ b : Block, b.renote .same = b := by
    intro b
    rw [Block.renote, Stmt.renoteAll_same fun s _ => s.renote_same]
  have hGlobal : ∀ o : Global, o.renote .same = o := by
    intro o
    cases o with
    | missing => rfl
    | var v => simp [Global.renote, GlobalVar.renote, Expr.renote_same]
    | function f => simp [Global.renote, Function.renote, Param.renote, hBody]
  have hState : ∀ st : State, st.renote .same = st := by
    intro st
    simp [State.renote, Handler.renote, Param.renote, hBody]
  simp [renote, hGlobal, hState]

theorem renote_renote (s : Script) : (s.renote n).renote n' = s.renote (n.andThen n') := by
  have hBody : ∀ b : Block, (b.renote n).renote n' = b.renote (n.andThen n') := by
    intro b
    simp only [Block.renote, Stmt.renoteAll_renoteAll fun s _ => s.renote_renote]
  have hGlobal : ∀ o : Global, (o.renote n).renote n' = o.renote (n.andThen n') := by
    intro o
    cases o with
    | missing => rfl
    | var v => simp [Global.renote, GlobalVar.renote, Expr.renote_renote]
    | function f => simp [Global.renote, Function.renote, Param.renote, Function.comp_def, hBody]
  have hState : ∀ st : State, (st.renote n).renote n' = st.renote (n.andThen n') := by
    intro st
    simp [State.renote, Handler.renote, Param.renote, Function.comp_def, hBody]
  simp [renote, Function.comp_def, hGlobal, hState]

theorem renumber_renumber (g g' : Nat → Nat) (s : Script) :
    (s.renote g).renote g' = s.renote (g' ∘ g) := by
  rw [renote_renote, Renoting.renumber_andThen]

theorem forget_eq (s : Script) : s.forget k = s.renote (.forget k) := by
  have hBody : ∀ b : Block, b.forget k = b.renote (.forget k) := by
    intro b
    rw [Block.forget, Block.renote, Stmt.forgetAll_eq fun s _ => s.forget_eq]
  have hGlobal : ∀ o : Global, o.forget k = o.renote (.forget k) := by
    intro o
    cases o with
    | missing => rfl
    | var v => rw [Global.forget, Global.renote, GlobalVar.forget, GlobalVar.renote, Expr.forget_eq]
    | function f => simp [Global.forget, Global.renote, Function.forget, Function.renote, Param.forget,
        Param.renote, hBody]
  have hState : ∀ st : State, st.forget k = st.renote (.forget k) := by
    intro st
    simp [State.forget, State.renote, Handler.forget, Handler.renote, Param.forget, Param.renote, hBody]
  simp [forget, renote, hGlobal, hState]

/-- A tree without notes carries no numbers. -/
theorem renumber_raw (g : Nat → Nat) (s : Script) : (s.forget .raw).renote g = s.forget .raw := by
  rw [forget_eq, renote_renote]
  rfl

end Script

end Lsl
