import Lsl.Proofs.RenewedNames

/-! Later names are resolved in the same way whatever notes a tree comes with, apart from its scopes, and
whatever the declaration runs are called. -/
namespace Lsl

open List

variable {n : Renoting} {g : Nat → Nat} {chain : List Scope}

/-- A name that is declared is bound to its declaration, whatever it was bound to. -/
theorem rebind_renote {name : String} {want : SymbolKind} {pos : Pos} {what : String}
    {view : Symbol → Symbol}
    {note : Option Symbol → Option Symbol}
    (hFound : Scope.lookupKind? (chain.map (·.renumber g)) name want =
      (Scope.lookupKind? chain name want).map view)
    (h : Option.map view = note ∨ rebindProblems chain name want pos what = []) (entry : Option Symbol) :
    rebind (chain.map (·.renumber g)) name want (note entry) = (rebind chain name want entry).map view := by
  unfold rebindProblems at h
  unfold rebind
  rw [hFound]
  cases hLook : Scope.lookupKind? chain name want with
  | some s => rfl
  | none => exact congrFun (h.resolve_right (by simp [hLook])).symm entry

theorem rebindProblems_renumber (chain : List Scope) (name : String) (want : SymbolKind) (pos : Pos)
    (what : String) : rebindProblems (chain.map (·.renumber g)) name want pos what =
      rebindProblems chain name want pos what := by
  unfold rebindProblems
  rw [Scope.lookupKind?_renumber]
  cases Scope.lookupKind? chain name want <;> rfl

theorem blockChain_renumber (scope : Option Scope) (around : List Scope) :
    blockChain (scope.map (·.renumber g)) (around.map (·.renumber g)) =
      (blockChain scope around).map (·.renumber g) := by
  cases scope <;> rfl

theorem bodyAround_renumber (scope : Option Scope) (around : List Scope) :
    bodyAround (scope.map (·.renumber g)) (around.map (·.renumber g)) =
      (bodyAround scope around).map (·.renumber g) := by
  cases scope <;> rfl

/-- What is found at sites when later names are resolved does not depend on notes. -/
theorem Site.linkProblems_renote (ss : List Site) :
    (ss.map (·.renote n)).flatMap (·.linkProblems (chain.map (·.renumber g))) =
      ss.flatMap (·.linkProblems chain) := by
  rw [flatMap_map]
  refine flatMap_congr fun s _ => ?_
  cases s with
  | gap | ident => rfl
  | callee => exact rebindProblems_renumber ..

namespace Expr

theorem linkAllProblems_renote (es : List Expr) :
    linkAllProblems (chain.map (·.renumber g)) (renoteAll n es) = linkAllProblems chain es := by
  rw [(charts_all _ _).unlinked, sitesAll_renote fun e _ => e.sites_renote, Site.linkProblems_renote,
    (charts_all _ _).unlinked]

theorem linkProblems_renote (x : Expr) :
    (x.renote n).linkProblems (chain.map (·.renumber g)) = x.linkProblems chain := by
  rw [(sites_charts _ _).unlinked, sites_renote, Site.linkProblems_renote, (sites_charts _ _).unlinked]

theorem linkAll_renote {es : List Expr}
    (ih : ∀ e ∈ es, n.resolved g = n.declared g ∨ e.linkProblems chain = [] →
      (e.renote (n.declared g)).link (chain.map (·.renumber g)) = (e.link chain).renote (n.resolved g))
    (h : n.resolved g = n.declared g ∨ linkAllProblems chain es = []) :
    linkAll (chain.map (·.renumber g)) (renoteAll (n.declared g) es) =
      renoteAll (n.resolved g) (linkAll chain es) := by
  induction es with
  | nil => rfl
  | cons e es ihs =>
    simp only [linkAllProblems, append_eq_nil_iff, or_and_left] at h
    simp only [renoteAll, linkAll, ih e (by simp) h.1, ihs (fun x hx => ih x (by simp [hx])) h.2]

/-- Where nothing is found, the resolution of later names replaces its notes. -/
theorem link_renote {x : Expr} (h : n.resolved g = n.declared g ∨ x.linkProblems chain = []) :
    (x.renote (n.declared g)).link (chain.map (·.renumber g)) = (x.link chain).renote (n.resolved g) := by
  induction x with
  | missing | int | float | string | ident | incDec => rfl
  | vector p x y z t ihx ihy ihz =>
    simp only [linkProblems, append_eq_nil_iff, or_and_left] at h
    simp only [renote, link, ihx h.1.1, ihy h.1.2, ihz h.2]
  | rotation p x y z s t ihx ihy ihz ihs =>
    simp only [linkProblems, append_eq_nil_iff, or_and_left] at h
    simp only [renote, link, ihx h.1.1.1, ihy h.1.1.2, ihz h.1.2, ihs h.2]
  | list p es t ih => simp only [renote, link, linkAll_renote ih h]
  | call p name es c t ih =>
    simp only [linkProblems, append_eq_nil_iff, or_and_left] at h
    have hCallee := rebind_renote (Scope.lookupKind?_renumber chain name .function)
      (h.2.imp_left (congrArg Renoting.callee)) c
    simp only [renote, link, linkAll_renote ih h.1, hCallee]
  | binary p op l r la ra t ihl ihr =>
    simp only [linkProblems, append_eq_nil_iff, or_and_left] at h
    simp only [renote, link, ihl h.1, ihr h.2]
  | assign p op v x la ra t ih =>
    simp only [renote, link, ih h]
    rfl
  | unary p op x t ih | cast p target x t ih | paren p x t ih | print p x t ih =>
    simp only [renote, link, ih h]

end Expr

namespace Stmt

variable {here around : List Scope}

theorem linkAllProblems_renote {ss : List Stmt} (h : ∀ s ∈ ss, ∀ here around,
      (s.renote (n.declared g)).linkProblems (here.map (·.renumber g)) (around.map (·.renumber g)) =
        s.linkProblems here around) :
    linkAllProblems (here.map (·.renumber g)) (around.map (·.renumber g)) (renoteAll (n.declared g) ss) =
      linkAllProblems here around ss := by
  induction ss with
  | nil => rfl
  | cons s ss ih => simp only [renoteAll, linkAllProblems, h s (by simp), ih fun t ht => h t (by simp [ht])]

/-- What is found in a statement when later names are resolved depends on its scopes alone. -/
theorem linkProblems_renote (s : Stmt) (here around : List Scope) :
    (s.renote (n.declared g)).linkProblems (here.map (·.renumber g)) (around.map (·.renumber g)) =
      s.linkProblems here around := by
  induction s generalizing here around with
  | missing | label | empty => rfl
  | block p scope ss ih => simp only [renote, linkProblems, blockChain_renumber, linkAllProblems_renote ih]
  | expr p x | ret p x | decl p name ty x entry => simp only [renote, linkProblems, Expr.linkProblems_renote]
  | ifThen | whileLoop | doWhile | forLoop =>
    simp only [renote, linkProblems, Expr.linkProblems_renote, Expr.linkAllProblems_renote,
      bodyAround_renumber, *]
  | jump | goto => simp only [renote, linkProblems, rebindProblems_renumber]

theorem linkAll_renote {ss : List Stmt}
    (ih : ∀ s ∈ ss, ∀ here around, n.resolved g = n.declared g ∨ s.linkProblems here around = [] →
      (s.renote (n.declared g)).link (here.map (·.renumber g)) (around.map (·.renumber g)) =
        (s.link here around).renote (n.resolved g))
    (h : n.resolved g = n.declared g ∨ linkAllProblems here around ss = []) :
    linkAll (here.map (·.renumber g)) (around.map (·.renumber g)) (renoteAll (n.declared g) ss) =
      renoteAll (n.resolved g) (linkAll here around ss) := by
  induction ss with
  | nil => rfl
  | cons s ss ihs =>
    simp only [linkAllProblems, append_eq_nil_iff, or_and_left] at h
    simp only [renoteAll, linkAll, ih s (by simp) here around h.1, ihs (fun t ht => ih t (by simp [ht])) h.2]

/-- Where nothing is found, the resolution of later names replaces its notes. -/
theorem link_renote {s : Stmt} (h : n.resolved g = n.declared g ∨ s.linkProblems here around = []) :
    (s.renote (n.declared g)).link (here.map (·.renumber g)) (around.map (·.renumber g)) =
      (s.link here around).renote (n.resolved g) := by
  induction s generalizing here around with
  | missing | label | empty => rfl
  | jump p l entry | goto p l entry =>
    have hEntry := rebind_renote (Scope.lookupKind?_renumber_own rfl here l)
      (h.imp_left (congrArg Renoting.jump)) entry
    simp only [renote, link, hEntry]
  | block p scope ss ih =>
    simp only [renote, link, blockChain_renumber]
    rw [linkAll_renote (fun s hs _ _ hNone => ih s hs hNone) h]
  | expr p x | ret p x | decl p name ty x entry => simp only [renote, link, Expr.link_renote h]
  | ifThen p c ts t es e iht ihe =>
    simp only [linkProblems, append_eq_nil_iff, or_and_left] at h
    simp only [renote, link, Expr.link_renote h.1.1, bodyAround_renumber, iht h.1.2, ihe h.2]
  | whileLoop p c bs b ih =>
    simp only [linkProblems, append_eq_nil_iff, or_and_left] at h
    simp only [renote, link, Expr.link_renote h.1, bodyAround_renumber, ih h.2]
  | doWhile p bs b c ih =>
    simp only [linkProblems, append_eq_nil_iff, or_and_left] at h
    simp only [renote, link, Expr.link_renote h.2, bodyAround_renumber, ih h.1]
  | forLoop p init c step bs b ih =>
    simp only [linkProblems, append_eq_nil_iff, or_and_left] at h
    obtain ⟨⟨⟨hInit, hCond⟩, hStep⟩, hBody⟩ := h
    have hExprs := fun {es} => @Expr.linkAll_renote n g here es fun _ _ => Expr.link_renote
    simp only [renote, link, hExprs hInit, Expr.link_renote hCond, hExprs hStep, bodyAround_renumber,
      ih hBody]

end Stmt

/-- Two outcomes: the same fault, or results that are related. -/
inductive Parallel {α β : Type} (R : α → β → Prop) : Except Fault α → Except Fault β →
    Prop where
  | fault (e : Fault) : Parallel R (.error e) (.error e)
  | ok {a : α} {b : β} (h : R a b) : Parallel R (.ok a) (.ok b)

/-- Two results with the same findings. The second is made of the first if what was found allows it. -/
structure Noted.Mirrors {α β : Type} (ok : List Diagnostic → Prop) (view : α → β) (r : Noted α)
    (r' : Noted β) :
    Prop where
  found : r'.2 = r.2
  agree : ok r.2 → r'.1 = view r.1

namespace Parallel

variable {α β γ δ : Type} {R : α → β → Prop} {S : γ → δ → Prop}

theorem bind {x : Except Fault α} {y : Except Fault β} {f : α → Except Fault γ}
    {f' : β → Except Fault δ}
    (h : Parallel R x y) (hRest : ∀ a b, R a b → Parallel S (f a) (f' b)) :
    Parallel S (x >>= f) (y >>= f') := by
  cases h with
  | fault e => exact .fault e
  | ok h => exact hRest _ _ h

theorem imp {R' : α → β → Prop} {x : Except Fault α} {y : Except Fault β} (h : Parallel R x y)
    (hImp : ∀ a b, R a b → R' a b) : Parallel R' x y := by
  cases h with
  | fault e => exact .fault e
  | ok h => exact .ok (hImp _ _ h)

theorem need {f : α → Except Fault γ} {f' : β → Except Fault δ} {view : α → β} {e : Fault}
    (part : Option α)
    (hRest : ∀ a, Parallel S (f a) (f' (view a))) :
    Parallel S (e.need part >>= f) (e.need (part.map view) >>= f') := by
  cases part with
  | none => exact .fault e
  | some a => exact hRest a

theorem mirrors {ok : List Diagnostic → Prop} {view : α → β} {x : Except Fault (Noted α)}
    {y : Except Fault (Noted β)} {k : Noted α → Except Fault γ} {k' : Noted β → Except Fault δ}
    (h : Parallel (Noted.Mirrors ok view) x y)
    (hRest : ∀ a b ds, (ok ds → b = view a) → Parallel S (k (a, ds)) (k' (b, ds))) :
    Parallel S (x >>= k) (y >>= k') := by
  refine .bind h ?_
  rintro ⟨a, ds⟩ ⟨b, ds'⟩ ⟨hFound, hAgree⟩
  obtain rfl : ds' = ds := hFound
  exact hRest a b ds' hAgree

theorem notedAll {p : Prop} {step step' : α → Except Fault (Noted α)} {before after : α → α}
    {as : List α}
    (h : ∀ a, Parallel (Noted.Mirrors (p ∨ · = []) after) (step a) (step' (before a))) :
    Parallel (Noted.Mirrors (p ∨ · = []) (List.map after)) (notedAll step as)
      (notedAll step' (as.map before)) := by
  induction as with
  | nil => exact .ok ⟨rfl, fun _ => rfl⟩
  | cons a as ih =>
    refine .mirrors (h a) fun b b' ds hHead => .mirrors ih fun bs bs' more hRest =>
      .ok ⟨rfl, fun hFound => ?_⟩
    simp only [append_eq_nil_iff, or_and_left] at hFound
    show b' :: bs' = _
    rw [hHead hFound.1, hRest hFound.2, map_cons]

end Parallel

namespace Script

/-- The resolution of later names is complete, or has no notes of its own to replace. -/
abbrev Linked (n : Renoting) (g : Nat → Nat) (ds : List Diagnostic) : Prop :=
  n.resolved g = n.declared g ∨ ds = []

theorem resolveBody_renote (around : List Scope) (body : Option Block) :
    Parallel (Noted.Mirrors (Linked n g) (Option.map (·.renote (n.resolved g)))) (resolveBody around body)
      (resolveBody (around.map (·.renumber g)) (body.map (·.renote (n.declared g)))) := by
  refine .need body fun b => .ok ?_
  have hChain : blockChain (b.renote (n.declared g)).scope (around.map (·.renumber g)) =
      (blockChain b.scope around).map (·.renumber g) := blockChain_renumber _ _
  rw [hChain]
  refine ⟨Stmt.linkAllProblems_renote fun s _ => s.linkProblems_renote, fun hFound => ?_⟩
  have hStmts := Stmt.linkAll_renote (fun _ _ _ _ => Stmt.link_renote) hFound
  exact congrArg (fun stmts => some { b.renote (n.resolved g) with stmts }) hStmts

theorem resolveGlobal_renote (around : List Scope) (o : Global) :
    Parallel (Noted.Mirrors (Linked n g) (·.renote (n.resolved g))) (resolveGlobal around o)
      (resolveGlobal (around.map (·.renumber g)) (o.renote (n.declared g))) := by
  cases o with
  | missing => exact .ok ⟨rfl, fun _ => rfl⟩
  | var v =>
    refine .ok ⟨v.init.linkProblems_renote, fun hFound => ?_⟩
    exact congrArg (fun init => Global.var { v.renote (n.resolved g) with init }) (Expr.link_renote hFound)
  | function f =>
    refine .mirrors (resolveBody_renote around f.body) fun b b' ds hBody => .ok ⟨rfl, fun hFound => ?_⟩
    exact congrArg (fun body => Global.function { f.renote (n.resolved g) with body }) (hBody hFound)

theorem resolveHandler_renote (around : List Scope) (h : Option Handler) :
    Parallel (Noted.Mirrors (Linked n g) (Option.map (·.renote (n.resolved g)))) (resolveHandler around h)
      (resolveHandler (around.map (·.renumber g)) (h.map (·.renote (n.declared g)))) := by
  refine .need h fun h => .mirrors (resolveBody_renote around h.body) fun b b' ds hBody =>
    .ok ⟨rfl, fun hFound => ?_⟩
  exact congrArg (fun body => some { h.renote (n.resolved g) with body }) (hBody hFound)

theorem resolveState_renote (around : List Scope) (s : Option State) :
    Parallel (Noted.Mirrors (Linked n g) (Option.map (·.renote (n.resolved g)))) (resolveState around s)
      (resolveState (around.map (·.renumber g)) (s.map (·.renote (n.declared g)))) := by
  refine .need s fun s => ?_
  have hAround : (s.renote (n.declared g)).scope.toList ++ around.map (·.renumber g) =
      (s.scope.toList ++ around).map (·.renumber g) := by
    simp [State.renote, Option.toList_map]
  rw [hAround]
  refine .mirrors (.notedAll fun h => resolveHandler_renote _ h) fun es es' ds hEvents =>
    .ok ⟨rfl, fun hFound => ?_⟩
  exact congrArg (fun events => some { s.renote (n.resolved g) with events }) (hEvents hFound)

/-- Later names are resolved in the same way in every run and whatever else is noted. Where nothing is found,
the notes of the resolution are replaced. -/
theorem resolve_renote (n : Renoting) (g : Nat → Nat) (s : Script) :
    Parallel (Noted.Mirrors (Linked n g) (·.renote (n.resolved g))) s.resolve
      (s.renote (n.declared g)).resolve := by
  have hAround : (s.renote (n.declared g)).scope.toList = s.scope.toList.map (·.renumber g) :=
    Option.toList_map ..
  unfold resolve
  rw [hAround]
  refine .mirrors (.notedAll fun o => resolveGlobal_renote _ o) fun gs gs' ds hGlobals => ?_
  refine .mirrors (.notedAll fun st => resolveState_renote _ st) fun sts sts' more hStates =>
    .ok ⟨rfl, fun hFound => ?_⟩
  simp only [Linked, append_eq_nil_iff, or_and_left] at hFound
  exact congrArg₂ (fun globals states => { s.renote (n.resolved g) with globals, states })
    (hGlobals hFound.1) (hStates hFound.2)

end Script

end Lsl
