import Lsl.Proofs.Routines

/-! Names are declared and resolved in the same way whatever notes a tree comes with, and whatever the
declaration runs are called. What these analyses find does not depend on their own notes or on those of later
ones. A note that is found anew replaces the one before; so where nothing is found, and also where the notes
differ in the numbers of runs only, the results differ in what is left of the difference. -/
namespace Lsl

open List

variable {d : Declaring} {pos : Pos} {sym : Symbol}

variable {n : Renoting} {g : Nat → Nat} {chain : List Scope}

namespace Ident

theorem bindProblems_renote (v : Ident) :
    (v.renote n).bindProblems (chain.map (·.renumber g)) = v.bindProblems chain := by
  have hFound := @Scope.lookupKind?_renumber g chain v.name .local
  have hName : (v.renote n).name = v.name := rfl
  unfold Ident.bindProblems
  rw [hName, hFound]
  cases Scope.lookupKind? chain v.name .local <;> rfl

/-- A variable that is declared is bound to its declaration, whatever it was bound to. -/
theorem bind_renote {v : Ident} (h : n.declared g = n ∨ v.bindProblems chain = []) :
    (v.renote n).bind (chain.map (·.renumber g)) = (v.bind chain).renote (n.declared g) := by
  have hFound := @Scope.lookupKind?_renumber_own g .local rfl chain v.name
  have hName : (v.renote n).name = v.name := rfl
  unfold Ident.bind
  rw [hName, hFound]
  unfold Ident.bindProblems at h
  cases hLook : Scope.lookupKind? chain v.name .local with
  | some s => rfl
  | none => exact congrArg v.renote (h.resolve_right (by simp [hLook])).symm

theorem target_bind_renote {p : Pos} {v : Option Ident}
    (h : n.declared g = n ∨ Ident.targetProblems chain p v = []) :
    (v.map (·.renote n)).map (·.bind (chain.map (·.renumber g))) =
      (v.map (·.bind chain)).map (·.renote (n.declared g)) := by
  cases v with
  | none => rfl
  | some v => exact congrArg some (bind_renote h)

end Ident

/-- What is found at sites when names are declared does not depend on notes. -/
theorem Site.bindProblems_renote (ss : List Site) :
    (ss.map (·.renote n)).flatMap (·.bindProblems (chain.map (·.renumber g))) =
      ss.flatMap (·.bindProblems chain) := by
  rw [flatMap_map]
  refine flatMap_congr fun s _ => ?_
  cases s with
  | gap | callee => rfl
  | ident v => exact v.bindProblems_renote

namespace Expr

theorem bindAllProblems_renote (es : List Expr) :
    bindAllProblems (chain.map (·.renumber g)) (renoteAll n es) = bindAllProblems chain es := by
  rw [(charts_all _ _).unbound, sitesAll_renote fun e _ => e.sites_renote, Site.bindProblems_renote,
    (charts_all _ _).unbound]

theorem bindProblems_renote (x : Expr) :
    (x.renote n).bindProblems (chain.map (·.renumber g)) = x.bindProblems chain := by
  rw [(sites_charts _ _).unbound, sites_renote, Site.bindProblems_renote, (sites_charts _ _).unbound]

theorem bindOptionalProblems_renote (x : Expr) :
    (x.renote n).bindOptionalProblems (chain.map (·.renumber g)) = x.bindOptionalProblems chain := by
  have h := @bindProblems_renote n g chain x
  cases x <;> first | exact h | rfl

theorem bindAll_renote {es : List Expr}
    (ih : ∀ e ∈ es, n.declared g = n ∨ e.bindProblems chain = [] →
      (e.renote n).bind (chain.map (·.renumber g)) = (e.bind chain).renote (n.declared g))
    (h : n.declared g = n ∨ bindAllProblems chain es = []) :
    bindAll (chain.map (·.renumber g)) (renoteAll n es) = renoteAll (n.declared g) (bindAll chain es) := by
  induction es with
  | nil => rfl
  | cons e es ihs =>
    simp only [bindAllProblems, append_eq_nil_iff, or_and_left] at h
    simp only [renoteAll, bindAll, ih e (by simp) h.1, ihs (fun x hx => ih x (by simp [hx])) h.2]

/-- Where nothing is found, the declaration of names replaces its notes. -/
theorem bind_renote {x : Expr} (h : n.declared g = n ∨ x.bindProblems chain = []) :
    (x.renote n).bind (chain.map (·.renumber g)) = (x.bind chain).renote (n.declared g) := by
  induction x with
  | missing | int | float | string => rfl
  | ident v => exact congrArg ident (Ident.bind_renote h)
  | incDec p d b v t => simp only [renote, bind, Ident.target_bind_renote h]
  | vector p x y z t ihx ihy ihz =>
    simp only [bindProblems, append_eq_nil_iff, or_and_left] at h
    simp only [renote, bind, ihx h.1.1, ihy h.1.2, ihz h.2]
  | rotation p x y z s t ihx ihy ihz ihs =>
    simp only [bindProblems, append_eq_nil_iff, or_and_left] at h
    simp only [renote, bind, ihx h.1.1.1, ihy h.1.1.2, ihz h.1.2, ihs h.2]
  | list p es t ih | call p name es c t ih => simp only [renote, bind, bindAll_renote ih h]
  | binary p op l r la ra t ihl ihr =>
    simp only [bindProblems, append_eq_nil_iff, or_and_left] at h
    simp only [renote, bind, ihl h.1, ihr h.2]
  | assign p op v x la ra t ih =>
    simp only [bindProblems, append_eq_nil_iff, or_and_left] at h
    simp only [renote, bind, ih h.1, Ident.target_bind_renote h.2]
  | unary p op x t ih | cast p target x t ih | paren p x t ih | print p x t ih =>
    simp only [renote, bind, ih h]

theorem bind_renote_optional {x : Expr} (h : n.declared g = n ∨ x.bindOptionalProblems chain = []) :
    (x.renote n).bind (chain.map (·.renumber g)) = (x.bind chain).renote (n.declared g) := by
  obtain rfl | hPresent := x.missing_or_present
  · rfl
  · apply bind_renote
    cases x <;> first | exact h | cases hPresent

end Expr

def Declaring.renumber (g : Nat → Nat) (d : Declaring) : Declaring :=
  { d with inner := d.inner.renumber g, outer := d.outer.map (·.renumber g), round := g d.round }

namespace Declares

variable {α β : Type} {m m' : Declares α} {f f' : α → Declares β} {R : α → α → Prop}
  {S : β → β → Prop}

/-- Two walks do the same to the scopes, under other numbers of runs, and find the same. Where nothing has
been found by their end, their results are alike, and also where no note of the declaration is changed
otherwise. -/
structure Mirrors (n : Renoting) (g : Nat → Nat) (m m' : Declares α) (R : α → α → Prop) : Prop where
  state : ∀ d, (m' (d.renumber g)).2 = (m d).2.renumber g
  grows : ∀ d, (m d).2.diagnostics = [] → d.diagnostics = []
  agree : ∀ d, n.declared g = n ∨ (m d).2.diagnostics = [] → R (m d).1 (m' (d.renumber g)).1

abbrev As (view : α → α) (a a' : α) : Prop := a' = view a

namespace Mirrors

theorem pure {a a' : α} (h : R a a') : Mirrors n g (pure a) (pure a') R :=
  ⟨fun _ => rfl, fun _ h => h, fun _ _ => h⟩

/-- Walks after one another. What the second ones do to the state must not depend on the results of the
first. -/
theorem bind (h : Mirrors n g m m' R)
    (hRest : ∀ a a', Mirrors n g (f a) (f' a') fun b b' => R a a' → S b b') :
    Mirrors n g (m >>= f) (m' >>= f') S where
  state := by
    intro d
    show (f' (m' (d.renumber g)).1 (m' (d.renumber g)).2).2 = (f (m d).1 (m d).2).2.renumber g
    rw [h.state]
    exact (hRest _ _).state _
  grows := fun d hNone => h.grows d ((hRest (m d).1 (m d).1).grows _ hNone)
  agree := by
    intro d hFound
    have hFirst := h.agree d (hFound.imp_right ((hRest (m d).1 (m d).1).grows _))
    show S (f (m d).1 (m d).2).1 (f' (m' (d.renumber g)).1 (m' (d.renumber g)).2).1
    rw [h.state]
    exact (hRest _ _).agree _ hFound hFirst

theorem andThen {step : Declares Unit} (h : Mirrors n g step step fun _ _ => True)
    (hRest : Mirrors n g m m' R) :
    Mirrors n g (do step; m) (do step; m') R :=
  h.bind fun _ _ => ⟨hRest.state, hRest.grows, fun d hFound _ => hRest.agree d hFound⟩

theorem complain {ds : List Diagnostic} {a a' : α} (h : ds ≠ []) (hKept : n.declared g = n → R a a') :
    Mirrors n g (do report ds; return a) (do report ds; return a') R where
  state := fun _ => rfl
  grows := fun _ hNone => (List.append_eq_nil_iff.mp hNone).1
  agree := fun _ hFound => hKept (hFound.resolve_right fun hNone => h (List.append_eq_nil_iff.mp hNone).2)

theorem mapM {step : α → Declares α} {before after : α → α} {as : List α}
    (h : ∀ a ∈ as, Mirrors n g (step a) (step (before a)) (As after)) :
    Mirrors n g (as.mapM step) ((as.map before).mapM step) (As (List.map after)) := by
  induction as with
  | nil => exact .pure rfl
  | cons a as ih =>
    rw [map_cons, mapM_cons, mapM_cons]
    refine .bind (h a (by simp)) fun b b' => .bind (ih fun x hx => h x (by simp [hx])) fun bs bs' => .pure ?_
    rintro rfl rfl
    rfl

end Mirrors

theorem report_mirrors (ds : List Diagnostic) : Mirrors n g (report ds) (report ds) fun _ _ => True :=
  ⟨fun _ => rfl, fun _ hNone => (List.append_eq_nil_iff.mp hNone).1, fun _ _ => trivial⟩

theorem enter_mirrors : Mirrors n g enter enter fun _ _ => True :=
  ⟨fun _ => rfl, fun _ hNone => hNone, fun _ _ => trivial⟩

theorem leave_mirrors : Mirrors n g leave leave (As (·.renumber g)) where
  state := by
    rintro ⟨inner, _ | outer⟩ <;> rfl
  grows := fun _ hNone => hNone
  agree := fun _ _ => rfl

theorem declare_free {inner : Scope} (h : d.inner.declare? { sym with round := d.round } = some inner) :
    declare pos sym d = (some { sym with round := d.round }, { d with inner }) := by
  simp only [declare, state_bind_eq, state_get_eq]
  exact ⟨_, _, ⟨rfl, rfl⟩, by simp only [h]; rfl⟩

theorem declare_taken (h : d.inner.declare? { sym with round := d.round } = none) :
    declare pos sym d = (none, { d with diagnostics := d.diagnostics ++
      [{ pos, kind := .duplicateName, message := sym.name }] }) := by
  simp only [declare, state_bind_eq, state_get_eq]
  exact ⟨_, _, ⟨rfl, rfl⟩, by simp only [h]; rfl⟩

theorem declare_renumber (pos : Pos) (hOwn : sym.kind ≠ .library) (d : Declaring) :
    declare pos sym (d.renumber g) =
      ((declare pos sym d).1.map (·.renumber g), (declare pos sym d).2.renumber g) := by
  have hScope := @Scope.declare?_renumber g { sym with round := d.round } hOwn d.inner
  cases hDeclare : d.inner.declare? { sym with round := d.round } with
  | some inner =>
    rw [hDeclare] at hScope
    rw [declare_free hDeclare]
    exact declare_free hScope
  | none =>
    rw [hDeclare] at hScope
    rw [declare_taken hDeclare]
    exact declare_taken hScope

/-- A name of the script is declared in the run that is under way. -/
theorem declare_mirrors (pos : Pos) {sym : Symbol} (hOwn : sym.kind ≠ .library) :
    Mirrors n g (declare pos sym) (declare pos sym) (As (Option.map (·.renumber g))) where
  state := fun d => congrArg Prod.snd (declare_renumber pos hOwn d)
  grows :=
    fun d hNone => (@declare_keeps (fun _ => True) d _ pos sym _ rfl trivial).1.diagnostics_eq_nil hNone
  agree := fun d _ => congrArg Prod.fst (declare_renumber pos hOwn d)

/-- A name is declared under the next number of its kind. -/
theorem numbered_mirrors {count : Declaring → Declaring} {sym : Declaring → Symbol}
    {f f' : Option Symbol → Declares β} (hOwn : ∀ d, (sym d).kind ≠ .library)
    (hCount : ∀ d, count (d.renumber g) = (count d).renumber g ∧ (count d).diagnostics = d.diagnostics)
    (hSym : ∀ d, sym (d.renumber g) = sym d)
    (h : ∀ e e', Mirrors n g (f e) (f' e') fun b b' => e' = e.map (·.renumber g) → S b b') :
    Mirrors n g (do let d ← get; set (count d); let entry ← declare pos (sym d); f entry)
      (do let d ← get; set (count d); let entry ← declare pos (sym d); f' entry) S := by
  have hWalk := fun d => (@declare_mirrors n g pos (sym d) (hOwn d)).bind h
  have hNext : ∀ d : Declaring, (do let d ← get; set (count d); let e ← declare pos (sym d); f' e :
    Declares β)
      (d.renumber g) = (declare pos (sym d) >>= f') ((count d).renumber g) := by
    intro d
    rw [← (hCount d).1, ← hSym d]
    rfl
  refine ⟨fun d => ?_, fun d hNone => (hCount d).2 ▸ (hWalk d).grows (count d) hNone, fun d hFound =>
    ?_⟩
  · rw [hNext]
    exact (hWalk d).state (count d)
  · rw [hNext]
    exact (hWalk d).agree (count d) hFound

theorem declareLocal_mirrors (pos : Pos) (name : String) (ty : Ty) :
    Mirrors n g (declareLocal pos name ty) (declareLocal pos name ty) (As (Option.map (·.renumber g))) := by
  have h :=
    fun d : Declaring => @declare_mirrors n g pos { name, kind := .local, ty, index := d.slots } (by simp)
  exact ⟨fun d => (h d).state { d with slots := d.slots + 1 },
    fun d => (h d).grows { d with slots := d.slots + 1 }, fun d => (h d).agree
      { d with slots := d.slots + 1 }⟩

/-- The variables of some part of a tree are bound in the open scopes. -/
theorem bound_mirrors {problems : List Scope → α → List Diagnostic} {bound : List Scope → α → α}
    {before after : α → α}
    (hProblems : ∀ chain a, problems (chain.map (·.renumber g)) (before a) = problems chain a)
    (hBound : ∀ chain a, n.declared g = n ∨ problems chain a = [] →
      bound (chain.map (·.renumber g)) (before a) = after (bound chain a)) (a : α) :
    Mirrors n g (do let d ← get; report (problems d.chain a); return bound d.chain a)
      (do let d ← get; report (problems d.chain (before a)); return bound d.chain (before a)) (As after)
        where
  state := fun d => congrArg (fun ds => { d.renumber g with diagnostics := d.diagnostics ++ ds })
    (hProblems d.chain a)
  grows := fun _ hNone => (List.append_eq_nil_iff.mp hNone).1
  agree :=
    fun d hFound => hBound d.chain a (hFound.imp_right fun hNone => (List.append_eq_nil_iff.mp hNone).2)

theorem expr_mirrors (x : Expr) : Mirrors n g (expr x) (expr (x.renote n)) (As (·.renote (n.declared g))) :=
  @bound_mirrors n g _ Expr.bindProblems Expr.bind _ _ (fun _ x => x.bindProblems_renote)
    (fun _ _ => Expr.bind_renote) x

theorem optional_mirrors (x : Expr) :
    Mirrors n g (optional x) (optional (x.renote n)) (As (·.renote (n.declared g))) :=
  @bound_mirrors n g _ Expr.bindOptionalProblems Expr.bind _ _ (fun _ x => x.bindOptionalProblems_renote)
    (fun _ _ => Expr.bind_renote_optional) x

theorem exprs_mirrors (es : List Expr) :
    Mirrors n g (exprs es) (exprs (Expr.renoteAll n es)) (As (Expr.renoteAll (n.declared g))) :=
  @bound_mirrors n g _ Expr.bindAllProblems Expr.bindAll _ _
    (fun _ es => Expr.bindAllProblems_renote es)
    (fun _ _ => Expr.bindAll_renote fun _ _ => Expr.bind_renote) es

theorem body_mirrors {s : Stmt} (h : Mirrors n g (stmt s) (stmt (s.renote n))
    (As (·.renote (n.declared g)))) :
    Mirrors n g (body s (stmt s)) (body (s.renote n) (stmt (s.renote n)))
      (As fun r => (r.1.map (·.renumber g), r.2.renote (n.declared g))) := by
  cases s with
  | missing => exact .complain (by simp) fun _ => rfl
  | block | label => exact .bind h fun s s' => .pure fun hs => congrArg (Prod.mk none) hs
  | _ =>
    refine .andThen enter_mirrors (.bind h fun s s' => .bind leave_mirrors fun sc sc' => .pure ?_)
    rintro rfl rfl
    rfl

theorem stmts_mirrors {ss : List Stmt}
    (h : ∀ s ∈ ss, Mirrors n g (stmt s) (stmt (s.renote n)) (As (·.renote (n.declared g)))) :
    Mirrors n g (stmts ss) (stmts (Stmt.renoteAll n ss)) (As (Stmt.renoteAll (n.declared g))) := by
  induction ss with
  | nil => exact .pure rfl
  | cons s ss ih =>
    refine .bind (h s (by simp)) fun o o' => .bind (ih fun x hx => h x (by simp [hx])) fun os os' => .pure ?_
    rintro rfl rfl
    rfl

/-- The declaration of the names of a statement does not depend on notes. -/
theorem stmt_mirrors (s : Stmt) :
    Mirrors n g (stmt s) (stmt (s.renote n)) (As (·.renote (n.declared g))) := by
  induction s with
  | missing => exact .complain (by simp) fun _ => rfl
  | block p scope ss ih =>
    refine .andThen enter_mirrors (.bind (stmts_mirrors ih) fun os os' => ?_)
    refine .bind leave_mirrors fun sc sc' => .pure ?_
    rintro rfl rfl
    rfl
  | expr p x => exact .bind (expr_mirrors x) fun y y' => .pure fun hy => congrArg (Stmt.expr p) hy
  | decl p name ty init entry =>
    refine .bind (optional_mirrors init) fun y y' => .bind (declareLocal_mirrors p name ty) fun e e' =>
      .pure ?_
    rintro rfl rfl
    rfl
  | ifThen p c ts t es e iht ihe =>
    refine .bind (expr_mirrors c) fun c c' => .bind (body_mirrors iht) fun r r' => ?_
    rw [Stmt.isMissing_renote]
    obtain rfl | hPresent := e.missing_or_present
    · refine .pure ?_
      rintro rfl rfl
      rfl
    · simp only [hPresent, Bool.false_eq_true, if_false]
      refine .bind (body_mirrors ihe) fun q q' => .pure ?_
      rintro rfl rfl rfl
      rfl
  | whileLoop p c bs b ih =>
    refine .bind (expr_mirrors c) fun c c' => .bind (body_mirrors ih) fun r r' => .pure ?_
    rintro rfl rfl
    rfl
  | doWhile p bs b c ih =>
    refine .bind (body_mirrors ih) fun r r' => .bind (expr_mirrors c) fun c c' => .pure ?_
    rintro rfl rfl
    rfl
  | forLoop p init c step bs b ih =>
    refine .bind (exprs_mirrors init) fun i i' => .bind (optional_mirrors c) fun c c' => ?_
    refine .bind (exprs_mirrors step) fun st st' => .bind (body_mirrors ih) fun r r' => .pure ?_
    rintro rfl rfl rfl rfl
    rfl
  | jump | goto | empty => exact .pure rfl
  | label p name entry =>
    exact numbered_mirrors (by simp) (fun _ => ⟨rfl, rfl⟩) (fun _ => rfl) fun e e' =>
      .pure fun he => congrArg (Stmt.label p name) he
  | ret p v => exact .bind (optional_mirrors v) fun y y' => .pure fun hy => congrArg (Stmt.ret p) hy

theorem params_mirrors (ps : List Param) : Mirrors n g (ps.mapM param) ((ps.map (·.renote n)).mapM param)
    (As (List.map (·.renote (n.declared g)))) := by
  refine .mapM fun p _ => .bind (declareLocal_mirrors p.pos p.name p.ty) fun e e' => .pure ?_
  rintro rfl
  rfl

theorem paramTypes_renote (ps : List Param) : paramTypes (ps.map (·.renote n)) = paramTypes ps := by
  simp [paramTypes, Param.renote, Function.comp_def]

/-- The declaration of the names of a body does not depend on notes. -/
theorem frame_mirrors (ps : List Param) (b : Block) :
    Mirrors n g (frame ps b) (frame (ps.map (·.renote n)) (b.renote n))
      (As fun r => (r.1.map (·.renote (n.declared g)), r.2.renote (n.declared g))) := by
  refine .andThen enter_mirrors (.andThen ⟨fun _ => rfl, fun _ hNone => hNone, fun _ _ => trivial⟩ ?_)
  refine .bind (params_mirrors ps) fun os os' => ?_
  refine .bind (stmts_mirrors fun s _ => stmt_mirrors s) fun ss ss' => ?_
  refine .bind leave_mirrors fun sc sc' => .pure ?_
  rintro rfl rfl rfl
  rfl

theorem globalVar_mirrors (v : GlobalVar) :
    Mirrors n g (globalVar v) (globalVar (v.renote n)) (As (·.renote (n.declared g))) := by
  refine .bind (optional_mirrors v.init) fun x x' => ?_
  refine numbered_mirrors (by simp) (fun _ => ⟨rfl, rfl⟩) (fun _ => rfl) fun e e' => .pure ?_
  rintro rfl rfl
  rfl

theorem function_mirrors (f : Function) :
    Mirrors n g (function f) (function (f.renote n)) (As (·.renote (n.declared g))) := by
  have hTypes : paramTypes (f.renote n).params = paramTypes f.params := paramTypes_renote _
  unfold function
  rw [hTypes]
  refine numbered_mirrors (by simp) (fun _ => ⟨rfl, rfl⟩) (fun _ => rfl) fun e e' => ?_
  obtain ⟨pos, name, result, params, body, entry⟩ := f
  cases body with
  | none =>
    refine .complain (by simp) ?_
    rintro hKept rfl
    simp only [Function.renote, hKept]
  | some b =>
    refine .bind (frame_mirrors params b) fun r r' => .pure ?_
    rintro rfl rfl
    rfl

theorem global_mirrors (script : Pos) (o : Global) :
    Mirrors n g (global script o) (global script (o.renote n)) (As (·.renote (n.declared g))) := by
  cases o with
  | missing => exact .complain (by simp) fun _ => rfl
  | var v => exact .bind (globalVar_mirrors v) fun _ _ => .pure fun h => congrArg Global.var h
  | function f => exact .bind (function_mirrors f) fun _ _ => .pure fun h => congrArg Global.function h

theorem knownHandler_mirrors (kind : EventKind) (h : Handler) :
    Mirrors n g (knownHandler kind h) (knownHandler kind (h.renote n)) (As (·.renote (n.declared g))) := by
  have hTypes : paramTypes (h.renote n).params = paramTypes h.params := paramTypes_renote _
  unfold knownHandler
  rw [hTypes]
  refine .bind (declare_mirrors _ (by simp)) fun e e' => ?_
  obtain ⟨pos, name, params, body, _, entry⟩ := h
  cases body with
  | none =>
    refine .complain (by simp) ?_
    rintro hKept rfl
    simp only [Handler.renote, hKept]
  | some b =>
    refine .bind (frame_mirrors params b) fun r r' => .pure ?_
    rintro rfl rfl
    rfl

theorem handler_mirrors (h : Handler) :
    Mirrors n g (handler h) (handler (h.renote n)) (As (·.renote (n.declared g))) := by
  have hTypes : paramTypes (h.renote n).params = paramTypes h.params := paramTypes_renote _
  have hName : (h.renote n).name = h.name := rfl
  unfold handler
  rw [hName]
  cases EventKind.ofName? h.name with
  | none => exact .complain (by simp) fun hKept => congrArg h.renote hKept.symm
  | some kind =>
    dsimp only
    rw [hTypes]
    by_cases hParams : paramTypes h.params ≠ kind.params
    · rw [if_pos hParams, if_pos hParams]
      exact .andThen (report_mirrors _) (knownHandler_mirrors kind h)
    · rw [if_neg hParams, if_neg hParams]
      exact knownHandler_mirrors kind h

theorem state_mirrors (index : Nat) (s : State) :
    Mirrors n g (state index s) (state index (s.renote n)) (As (·.renote (n.declared g))) := by
  refine .bind (declare_mirrors _ (by simp)) fun e e' => .andThen enter_mirrors ?_
  refine .bind (@Mirrors.mapM n g _ _ _ (Option.map (·.renote (n.declared g))) _ fun h _ => ?_)
    fun os os' => ?_
  · cases h with
    | none => exact .complain (by simp) fun _ => rfl
    | some h => exact .bind (handler_mirrors h) fun _ _ => .pure fun hh => congrArg some hh
  · refine .bind leave_mirrors fun sc sc' => .pure ?_
    rintro rfl rfl rfl
    rfl

theorem states_mirrors (script : Pos) (index : Nat) (ss : List (Option State)) :
    Mirrors n g (states script index ss) (states script index (ss.map (Option.map (·.renote n))))
      (As (List.map (Option.map (·.renote (n.declared g))))) := by
  induction ss generalizing index with
  | nil => exact .pure rfl
  | cons s ss ih =>
    cases s with
    | none =>
      refine .andThen (report_mirrors _) ?_
      exact .bind (ih (index + 1)) fun os os' => .pure fun hRest => congrArg (none :: ·) hRest
    | some s =>
      refine .bind (state_mirrors index s) fun o o' => .bind (ih (index + 1)) fun os os' => .pure ?_
      rintro rfl rfl
      rfl

/-- The declaration of the names of a script does not depend on notes. -/
theorem script_mirrors (s : Script) :
    Mirrors n g (script s) (script (s.renote n)) (As (·.renote (n.declared g))) := by
  have hDefault : requireDefault (s.renote n) = requireDefault s := by
    have hStarts : startsDefault (s.renote n).states = startsDefault s.states := by
      obtain ⟨pos, globals, states, scope⟩ := s
      match states with
      | [] | none :: _ | some _ :: _ => rfl
    rw [requireDefault, hStarts, requireDefault]
    rfl
  refine .bind (.mapM fun o _ => global_mirrors s.pos o) fun gs gs' => ?_
  rw [hDefault]
  refine .andThen (report_mirrors _) (.bind (states_mirrors s.pos 0 s.states) fun os os' => ?_)
  refine .bind (R := As (·.renumber g)) ⟨fun _ => rfl, fun _ hNone => hNone, fun _ _ => rfl⟩
    fun d d' => .pure ?_
  rintro rfl rfl rfl
  rfl

end Declares

/-- The declaration of names finds the same whatever notes a script has. Where it finds nothing, it replaces
its notes; and it does the same in every run. -/
theorem Script.declare_renote (n : Renoting) (g : Nat → Nat) (visible : List LibraryFunction) (round : Nat)
    (s : Script) :
    ((s.renote n).declare visible (g round)).2 = (s.declare visible round).2 ∧
    (n.declared g = n ∨ (s.declare visible round).2 = [] →
      ((s.renote n).declare visible (g round)).1 = (s.declare visible round).1.renote (n.declared g)) := by
  have hLibrary : Scope.renumber g ⟨visible.map (·.symbol)⟩ = ⟨visible.map (·.symbol)⟩ := by
    simp only [Scope.renumber, map_map]
    rfl
  let start : Declaring := { inner := ⟨visible.map (·.symbol)⟩, round }
  have hStart : start.renumber g = { inner := ⟨visible.map (·.symbol)⟩, round := g round } := by
    rw [Declaring.renumber, hLibrary]
    rfl
  have h := @Declares.script_mirrors n g s
  have hFound := congrArg Declaring.diagnostics (h.state start)
  have hTree := h.agree start
  rw [hStart] at hFound hTree
  exact ⟨hFound, hTree⟩

end Lsl
