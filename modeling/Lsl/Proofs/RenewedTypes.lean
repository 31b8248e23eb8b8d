import Lsl.Proofs.Labels
import Lsl.Proofs.RenewedLinks

/-! Types are noted in the same way whatever types a tree comes with, and whatever the declaration runs are
called. Initial values are kept in a table under the numbers of runs, so there two trees are compared, each
with its own table. -/
namespace Lsl

variable {n n' : Renoting} {g g' : Nat → Nat} {failed : Bool} {α γ δ : Type}

abbrev Noted.As {α β : Type} (view : α → β) (r : Noted α) (r' : Noted β) : Prop :=
    r' = (view r.1, r.2)

namespace Parallel

variable {β : Type} {S : γ → δ → Prop} {x : Except Fault (Noted α)} {y : Except Fault (Noted β)}

theorem noted {view : α → β} {k : Noted α → Except Fault γ} {k' : Noted β → Except Fault δ}
    (h : Parallel (Noted.As view) x y) (hRest : ∀ a ds, Parallel S (k (a, ds)) (k' (view a, ds))) :
    Parallel S (x >>= k) (y >>= k') := by
  refine .bind h ?_
  rintro ⟨a, ds⟩ _ rfl
  exact hRest a ds

/-- Steps that go on from two results that are both made of a third. -/
theorem both {ok ok' : List Diagnostic → Prop} {view view' : α → β} {y' : Except Fault (Noted β)}
    {k : Noted β → Except Fault γ} {k' : Noted β → Except Fault δ}
      (h : Parallel (Noted.Mirrors ok view) x y)
    (h' : Parallel (Noted.Mirrors ok' view') x y')
    (hRest : ∀ a b b' ds, (ok ds → b = view a) → (ok' ds → b' = view' a) →
      Parallel S (k (b, ds)) (k' (b', ds))) : Parallel S (y >>= k) (y' >>= k') := by
  cases h with
  | fault e =>
    cases h'
    exact .fault e
  | @ok r q hq =>
    cases h' with
    | @ok _ q' hq' =>
      obtain ⟨a, ds⟩ := r
      obtain ⟨b, ds₁⟩ := q
      obtain ⟨b', ds₂⟩ := q'
      obtain rfl : ds₁ = ds := hq.found
      obtain rfl : ds₂ = ds₁ := hq'.found
      exact hRest a b b' ds₂ hq.agree hq'.agree

theorem mirrored {ok : List Diagnostic → Prop} {view : α → β} (h : Parallel (Noted.As view) x y) :
    Parallel (Noted.Mirrors ok view) x y := by
  cases h with
  | fault e => exact .fault e
  | ok h => exact .ok ⟨by rw [h], fun _ => by rw [h]⟩

end Parallel

theorem Ident.infer_renote (v : Ident) :
    Parallel (Noted.As (·.renote g)) v.infer (v.renote (n.resolved g)).infer := by
  refine .need v.entry fun s => ?_
  have hMember : (v.renote (n.resolved g)).member = v.member := rfl
  by_cases h : v.member = ""
  · rw [hMember, if_pos h, if_pos h]
    exact .ok rfl
  · rw [hMember, if_neg h, if_neg h]
    exact .ok rfl

namespace Expr

@[simp] theorem componentProblems_renumber (x : Expr) :
    (x.renote g).componentProblems = x.componentProblems := by
  simp [componentProblems]

@[simp] theorem elementProblems_renumber (x : Expr) :
    (x.renote g).elementProblems = x.elementProblems := by
  simp [elementProblems]

theorem map_ty_renumberAll (es : List Expr) : (renoteAll g es).map ty = es.map ty := by
  simp [renoteAll_eq_map, Function.comp_def]

theorem inferAll_renote {es : List Expr}
    (h : ∀ e ∈ es, Parallel (Noted.As (renote g)) e.infer (e.renote (n.resolved g)).infer) :
    Parallel (Noted.As (renoteAll g)) (inferAll es) (inferAll (renoteAll (n.resolved g) es)) := by
  induction es with
  | nil => exact .ok rfl
  | cons e es ih =>
    refine .noted (h e (by simp)) fun e ds => ?_
    exact .noted (ih fun x hx => h x (by simp [hx])) fun es more => .ok rfl

theorem inferElements_renote {es : List Expr}
    (h : ∀ e ∈ es, Parallel (Noted.As (renote g)) e.infer (e.renote (n.resolved g)).infer) :
    Parallel (Noted.As (renoteAll g)) (inferElements es)
      (inferElements (renoteAll (n.resolved g) es)) := by
  induction es with
  | nil => exact .ok rfl
  | cons e es ih =>
    refine .noted (h e (by simp)) fun e ds => .noted (ih fun x hx => h x (by simp [hx])) fun es more => ?_
    simp only [elementProblems_renumber]
    exact .ok rfl

/-- Types are noted anew. -/
theorem infer_renote (x : Expr) :
    Parallel (Noted.As (renote g)) x.infer (x.renote (n.resolved g)).infer := by
  induction x with
  | missing => exact .fault _
  | int | float | string => exact .ok rfl
  | ident v => exact .noted v.infer_renote fun v ds => .ok rfl
  | vector p x y z t ihx ihy ihz =>
    refine .noted ihx fun x dx => .noted ihy fun y dy => .noted ihz fun z dz => ?_
    simp only [componentProblems_renumber]
    exact .ok rfl
  | rotation p x y z s t ihx ihy ihz ihs =>
    refine .noted ihx fun x dx => .noted ihy fun y dy => .noted ihz fun z dz => .noted ihs fun s ds => ?_
    simp only [componentProblems_renumber]
    exact .ok rfl
  | list p es t ih => exact .noted (inferElements_renote ih) fun es ds => .ok rfl
  | unary p op x t ih | cast p target x t ih | paren p x t ih | print p x t ih =>
    refine .noted ih fun x dx => ?_
    simp only [ty_renumber]
    exact .ok rfl
  | binary p op l r la ra t ihl ihr =>
    refine .noted ihl fun l dl => .noted ihr fun r dr => ?_
    simp only [ty_renumber]
    exact .ok rfl
  | assign p op v x la ra t ih =>
    refine .need v fun v => .noted v.infer_renote fun v dv => .noted ih fun x dx => ?_
    simp only [ty_renumber]
    exact .ok rfl
  | incDec p d b v t => exact .need v fun v => .noted v.infer_renote fun v dv => .ok rfl
  | call p name es c t ih =>
    refine .noted (inferAll_renote ih) fun es ds => .need c fun s => ?_
    simp only [Symbol.renumberVisible_ty, Symbol.renumberVisible_params, map_ty_renumberAll]
    exact .ok rfl

theorem inferCondition_renote (failed : Bool) (x : Expr) : Parallel (Noted.As (renote g))
    (x.inferCondition failed) ((x.renote (n.resolved g)).inferCondition failed) := by
  refine .noted x.infer_renote fun x ds => ?_
  simp only [ty_renumber, pos_renote]
  exact .ok rfl

theorem inferOptional_renote (x : Expr) :
    Parallel (Noted.As (renote g)) x.inferOptional (x.renote (n.resolved g)).inferOptional := by
  have h := @infer_renote n g x
  cases x with
  | missing => exact .ok rfl
  | _ => exact h

theorem inferOptionalCondition_renote (failed : Bool) (x : Expr) : Parallel (Noted.As (renote g))
    (x.inferOptionalCondition failed) ((x.renote (n.resolved g)).inferOptionalCondition failed) := by
  have h := @inferCondition_renote n g failed x
  cases x with
  | missing => exact .ok rfl
  | _ => exact h

end Expr

namespace Stmt

theorem declProblems_renumber (p : Pos) (name : String) (ty : Ty) (x : Expr) :
    declProblems p name ty (x.renote g) = declProblems p name ty x := by
  cases x <;> rfl

theorem returnProblems_renumber (p : Pos) (result : Ty) (x : Expr) :
    returnProblems p result (x.renote g) = returnProblems p result x := by
  cases x <;> rfl

/-- Types are noted up to the first problem. So they were all noted, or there were no others before. -/
def Checked (n : Renoting) (g : Nat → Nat) (failed : Bool) (ds : List Diagnostic) : Prop :=
  .renumber g = n.resolved g ∨ failed = false ∧ ds = []

namespace Checked

variable {ds more : List Diagnostic}

theorem left (h : Checked n g failed (ds ++ more)) : Checked n g failed ds :=
  h.imp_right fun h => ⟨h.1, (List.append_eq_nil_iff.mp h.2).1⟩

theorem right (h : Checked n g failed (ds ++ more)) : Checked n g (failed || !ds.isEmpty) more := by
  refine h.imp_right fun ⟨hFailed, hNone⟩ => ?_
  obtain ⟨rfl, hMore⟩ := List.append_eq_nil_iff.mp hNone
  exact ⟨by simp [hFailed], hMore⟩

end Checked

theorem checkAll_renote {result : Ty} {ss : List Stmt}
    (h : ∀ s ∈ ss, ∀ failed, Parallel (Noted.Mirrors (Checked n g failed) (renote g))
      (check result failed s) (check result failed (s.renote (n.resolved g)))) :
    Parallel (Noted.Mirrors (Checked n g failed) (renoteAll g)) (checkAll result failed ss)
      (checkAll result failed (renoteAll (n.resolved g) ss)) := by
  induction ss generalizing failed with
  | nil => exact .ok ⟨rfl, fun _ => rfl⟩
  | cons s ss ih =>
    cases failed with
    | true =>
      refine .ok ⟨rfl, fun hFound => ?_⟩
      rw [hFound.resolve_right (by simp)]
      rfl
    | false =>
      refine .mirrors (h s (by simp) false) fun s s' ds hHead => ?_
      refine .mirrors (ih fun t ht => h t (by simp [ht])) fun ss ss' more hRest =>
        .ok ⟨rfl, fun hFound => ?_⟩
      show s' :: ss' = _
      rw [hHead hFound.left, hRest hFound.right]
      rfl

/-- Types are noted anew in a statement in which nothing is found, unless something was found before. -/
theorem check_renote {result : Ty} (failed : Bool) (s : Stmt) :
    Parallel (Noted.Mirrors (Checked n g failed) (renote g)) (check result failed s)
      (check result failed (s.renote (n.resolved g))) := by
  induction s generalizing failed with
  | missing | jump | label | goto | empty => exact .ok ⟨rfl, fun _ => rfl⟩
  | block p scope ss ih =>
    refine .mirrors (checkAll_renote ih) fun ss ss' ds hStmts => .ok ⟨rfl, fun hFound => ?_⟩
    exact congrArg (block p _) (hStmts hFound)
  | expr p x => exact .noted x.infer_renote fun x ds => .ok ⟨rfl, fun _ => rfl⟩
  | decl p name ty x entry =>
    refine .noted x.inferOptional_renote fun x ds => ?_
    simp only [declProblems_renumber]
    exact .ok ⟨rfl, fun _ => rfl⟩
  | ret p x =>
    refine .noted x.inferOptional_renote fun x ds => ?_
    simp only [returnProblems_renumber]
    exact .ok ⟨rfl, fun _ => rfl⟩
  | ifThen p c ts t es e iht ihe =>
    refine .noted (c.inferCondition_renote failed) fun c dc => .mirrors (iht _) fun t t' dt hThen => ?_
    refine .mirrors (ihe _) fun e e' de hElse => .ok ⟨rfl, fun hFound => ?_⟩
    rw [List.append_assoc] at hFound
    obtain rfl := hThen hFound.right.left
    obtain rfl := hElse hFound.right.right
    rfl
  | whileLoop p c bs b ih =>
    refine .noted (c.inferCondition_renote failed) fun c dc => .mirrors (ih _) fun b b' db hBody => ?_
    refine .ok ⟨rfl, fun hFound => ?_⟩
    obtain rfl := hBody hFound.right
    rfl
  | doWhile p bs b c ih =>
    refine .mirrors (ih _) fun b b' db hBody => .noted (c.inferCondition_renote _) fun c dc => ?_
    refine .ok ⟨rfl, fun hFound => ?_⟩
    obtain rfl := hBody hFound.left
    rfl
  | forLoop p init c step bs b ih =>
    have hAll := fun es => @Expr.inferAll_renote n g es fun e _ => e.infer_renote
    refine .noted (hAll init) fun i di => .noted (c.inferOptionalCondition_renote _) fun c dc => ?_
    refine .noted (hAll step) fun st ds => .mirrors (ih _) fun b b' db hBody =>
      .ok ⟨rfl, fun hFound => ?_⟩
    rw [List.append_assoc, List.append_assoc] at hFound
    obtain rfl := hBody hFound.right.right.right
    rfl

end Stmt

namespace Script

/-- The types of a script were all noted, or there were no others before. -/
abbrev Typed (n : Renoting) (g : Nat → Nat) (ds : List Diagnostic) : Prop :=
  .renumber g = n.resolved g ∨ ds = []

theorem checkBody_renote (result : Ty) (body : Option Block) :
    Parallel (Noted.Mirrors (Typed n g) (Option.map (·.renote g))) (checkBody result body)
      (checkBody result (body.map (·.renote (n.resolved g)))) := by
  refine .need body fun b => ?_
  refine .mirrors (Stmt.checkAll_renote fun s _ failed => s.check_renote failed) fun ss ss' ds hStmts => ?_
  refine .ok ⟨rfl, fun hFound => ?_⟩
  obtain rfl := hStmts (hFound.imp_right fun hNone => ⟨rfl, hNone⟩)
  rfl

theorem checkUntil_renote {α : Type} {p : Prop} {before after : α → α}
    {step : α → Except Fault (Noted α)}
    {as : List α} (h : ∀ a, Parallel (Noted.Mirrors (p ∨ · = []) after) (step a) (step (before a)))
    (hKept : p → after = before) :
    Parallel (Noted.Mirrors (p ∨ · = []) (List.map after)) (checkUntil step as)
      (checkUntil step (as.map before)) := by
  induction as with
  | nil => exact .ok ⟨rfl, fun _ => rfl⟩
  | cons a as ih =>
    refine .mirrors (h a) fun b b' ds hHead => ?_
    cases ds with
    | nil =>
      refine .mirrors ih fun bs bs' more hRest => .ok ⟨rfl, fun hFound => ?_⟩
      exact congrArg₂ List.cons (hHead (.inr rfl)) (hRest hFound)
    | cons =>
      refine .ok ⟨rfl, fun hFound => ?_⟩
      have hSame := hKept (hFound.resolve_right (by simp))
      exact congrArg₂ List.cons (hHead hFound) (by rw [hSame])

theorem checkHandler_renote (h : Option Handler) :
    Parallel (Noted.Mirrors (Typed n g) (Option.map (·.renote g))) (checkHandler h)
      (checkHandler (h.map (·.renote (n.resolved g)))) := by
  refine .need h fun h => .mirrors (checkBody_renote .void h.body) fun b b' ds hBody =>
    .ok ⟨rfl, fun hFound => ?_⟩
  obtain rfl := hBody hFound
  rfl

theorem checkState_renote (s : Option State) :
    Parallel (Noted.Mirrors (Typed n g) (Option.map (·.renote g))) (checkState s)
      (checkState (s.map (·.renote (n.resolved g)))) := by
  refine .need s fun s => ?_
  refine .mirrors (checkUntil_renote checkHandler_renote fun hKept => by rw [hKept])
    fun es es' ds hEvents => ?_
  refine .ok ⟨rfl, fun hFound => ?_⟩
  obtain rfl := hEvents hFound
  rfl

end Script

/-- A relation between the tables of two numberings: they hold the same for each symbol, and so they do after
the same is noted for a symbol in both. -/
structure Tracks {β : Type} (g g' : Nat → Nat)
    (Q : List ((Nat × Nat) × β) → List ((Nat × Nat) × β) → Prop) : Prop where
  look : ∀ t t', Q t t' → ∀ s : Symbol, t.lookup (s.renumber g).key = t'.lookup (s.renumber g').key
  note : ∀ t t', Q t t' → ∀ (s : Symbol) (b : β),
    Q (((s.renumber g).key, b) :: t) (((s.renumber g').key, b) :: t')

variable {Q : Constants → Constants → Prop} {cs cs' : Constants}

theorem Tracks.constant?_eq (hQ : Tracks g g' Q) (h : Q cs cs') (s : Symbol) :
    cs.constant? (s.renumber g) = cs'.constant? (s.renumber g') := by
  have hLook := hQ.look cs cs' h s
  unfold Constants.constant?
  exact congrArg (fun c => if s.kind = .global then c else none) hLook

theorem Tracks.entry_constant?_eq (hQ : Tracks g g' Q) (h : Q cs cs') (entry : Option Symbol) :
    (entry.map (·.renumber g)).bind cs.constant? = (entry.map (·.renumber g')).bind cs'.constant? := by
  cases entry with
  | none => rfl
  | some s => exact hQ.constant?_eq h s

namespace Expr

theorem fourth_renumber (hQ : Tracks g g' Q) (h : Q cs cs') (x : Expr) :
    (x.renote g).fourth cs = (x.renote g').fourth cs' := by
  induction x with
  | ident v =>
    exact congrArg (fun c => (c.map (·.fourth)).getD .zero) (hQ.entry_constant?_eq h v.entry)
  | unary p op x t ih => exact congrArg Single.neg ih
  | paren p x t ih => exact ih
  | _ => rfl

theorem foldAll_renumber {es : List Expr}
    (h : ∀ e ∈ es, (e.renote g).fold cs = (e.renote g').fold cs') :
    foldAll cs (renoteAll g es) = foldAll cs' (renoteAll g' es) := by
  induction es with
  | nil => rfl
  | cons e es ih => simp only [renoteAll, foldAll, h e (by simp), ih fun x hx => h x (by simp [hx])]

/-- The value of a constant expression does not depend on the numbers of runs. -/
theorem fold_renumber (hQ : Tracks g g' Q) (h : Q cs cs') (x : Expr) :
    (x.renote g).fold cs = (x.renote g').fold cs' := by
  induction x with
  | ident v =>
    have hEntry := hQ.entry_constant?_eq h v.entry
    simp only [renote, fold, Ident.renote, hEntry]
  | list p es t ih => simp only [renote, fold, foldAll_renumber ih]
  | vector | rotation | unary | paren => simp only [renote, fold, *]
  | _ => rfl

end Expr

/-- Two results with the same findings and with tables that go along. If what was found allows it, they are
one tree under two numberings. -/
structure Twins {α : Type} (ok : List Diagnostic → Prop) (view view' : α → α)
    (Q : Constants → Constants → Prop)
    (r r' : Noted (α × Constants)) : Prop where
  tree : ok r.2 → ∃ a, r.1.1 = view a ∧ r'.1.1 = view' a
  constants : Q r.1.2 r'.1.2
  found : r'.2 = r.2

theorem Parallel.twins {ok : List Diagnostic → Prop} {view view' : α → α} {S : γ → δ → Prop}
    {x y : Except Fault (Noted (α × Constants))} {k : Noted (α × Constants) → Except Fault γ}
    {k' : Noted (α × Constants) → Except Fault δ} (h : Parallel (Twins ok view view' Q) x y)
    (hRest : ∀ a a' cs cs' ds, (ok ds → ∃ b, a = view b ∧ a' = view' b) → Q cs cs' →
      Parallel S (k ((a, cs), ds)) (k' ((a', cs'), ds))) :
    Parallel S (x >>= k) (y >>= k') := by
  refine .bind h ?_
  rintro ⟨⟨a, cs⟩, ds⟩ ⟨⟨a', cs'⟩, ds'⟩ ⟨hTree, hConstants, hFound⟩
  obtain rfl : ds' = ds := hFound
  exact hRest a a' cs cs' ds' hTree hConstants

namespace Script

abbrev BothTyped (n n' : Renoting) (g g' : Nat → Nat) (ds : List Diagnostic) : Prop :=
    Typed n g ds ∧ Typed n' g' ds

theorem recordConstant_renumber (hQ : Tracks g g' Q) (h : Q cs cs') (v : GlobalVar) (c : Constant) :
    Parallel Q (recordConstant cs (v.renote g) c) (recordConstant cs' (v.renote g') c) := by
  obtain ⟨pos, name, ty, init, entry⟩ := v
  cases entry with
  | none => exact .fault _
  | some s => exact .ok (hQ.note cs cs' h s c)

theorem checkGlobalVar_renote (hQ : Tracks g g' Q) (h : Q cs cs') (v : GlobalVar) :
    Parallel (Twins (fun _ => True) (·.renote g) (·.renote g') Q)
      (checkGlobalVar cs (v.renote (n.resolved g))) (checkGlobalVar cs' (v.renote (n'.resolved g'))) := by
  obtain ⟨pos, name, ty, init, entry⟩ := v
  have hInfer := fun n g => @Parallel.mirrored _ _ _ _ (fun _ => True) _ (@Expr.infer_renote n g init)
  unfold checkGlobalVar
  cases init with
  | missing =>
    refine .bind (recordConstant_renumber hQ h ⟨pos, name, ty, .missing, entry⟩ _) fun cs cs' h => ?_
    exact .ok ⟨fun _ => ⟨⟨pos, name, ty, .missing, entry⟩, rfl, rfl⟩, h, rfl⟩
  | _ =>
    refine .both (hInfer n g) (hInfer n' g') fun init left right ds hLeft hRight => ?_
    obtain rfl := hLeft trivial
    obtain rfl := hRight trivial
    have hStopped : ∀ ds, Parallel (Twins (fun _ => True) (·.renote g) (·.renote g') Q)
        (.ok ((GlobalVar.renote g ⟨pos, name, ty, init, entry⟩, cs), ds))
        (.ok ((GlobalVar.renote g' ⟨pos, name, ty, init, entry⟩, cs'), ds)) :=
      fun ds => .ok ⟨fun _ => ⟨⟨pos, name, ty, init, entry⟩, rfl, rfl⟩, h, rfl⟩
    cases ds with
    | cons => exact hStopped _
    | nil =>
      simp only [Expr.ty_renumber, Expr.pos_renote, Expr.fold_renumber hQ h, Expr.fourth_renumber hQ h,
        GlobalVar.renote]
      cases Ty.coercible ty init.ty with
      | false => exact hStopped _
      | true =>
        cases (init.renote g').fold cs' with
        | none => exact hStopped _
        | some c =>
          cases hConvert : c.convert? ty with
          | none =>
            simp only [hConvert]
            exact hStopped _
          | some c =>
            simp only [hConvert]
            have hRecord := recordConstant_renumber hQ h ⟨pos, name, ty, init, entry⟩
            refine .bind (hRecord _) fun cs cs' h => ?_
            exact .ok ⟨fun _ => ⟨⟨pos, name, ty, init, entry⟩, rfl, rfl⟩, h, rfl⟩

theorem checkGlobal_renote (hQ : Tracks g g' Q) (h : Q cs cs') (o : Global) :
    Parallel (Twins (BothTyped n n' g g') (·.renote g) (·.renote g') Q)
      (checkGlobal cs (o.renote (n.resolved g))) (checkGlobal cs' (o.renote (n'.resolved g'))) := by
  cases o with
  | missing => exact .ok ⟨fun _ => ⟨.missing, rfl, rfl⟩, h, rfl⟩
  | var v =>
    refine .twins (checkGlobalVar_renote hQ h v) fun v v' cs cs' ds hTree h => ?_
    obtain ⟨v, rfl, rfl⟩ := hTree trivial
    exact .ok ⟨fun _ => ⟨.var v, rfl, rfl⟩, h, rfl⟩
  | function f =>
    refine .both (checkBody_renote f.result f.body) (checkBody_renote f.result f.body)
      fun body b b' ds hLeft hRight => .ok ⟨?_, h, rfl⟩
    rintro ⟨hFound, hFound'⟩
    obtain rfl := hLeft hFound
    obtain rfl := hRight hFound'
    exact ⟨.function { f with body }, rfl, rfl⟩

theorem checkGlobals_renote (hQ : Tracks g g' Q) (h : Q cs cs') (gs : List Global) :
    Parallel (Twins (BothTyped n n' g g') (List.map (·.renote g))
        (List.map (·.renote g')) Q)
      (checkGlobals cs (gs.map (·.renote (n.resolved g))))
      (checkGlobals cs' (gs.map (·.renote (n'.resolved g')))) := by
  induction gs generalizing cs cs' with
  | nil => exact .ok ⟨fun _ => ⟨[], rfl, rfl⟩, h, rfl⟩
  | cons o gs ih =>
    refine .twins (checkGlobal_renote hQ h o) fun o o' cs cs' ds hHead h => ?_
    cases ds with
    | nil =>
      refine .twins (ih h) fun os os' cs cs' more hRest h => .ok ⟨fun hFound => ?_, h, rfl⟩
      obtain ⟨o, rfl, rfl⟩ := hHead ⟨.inr rfl, .inr rfl⟩
      obtain ⟨os, rfl, rfl⟩ := hRest hFound
      exact ⟨o :: os, rfl, rfl⟩
    | cons =>
      refine .ok ⟨fun hFound => ?_, h, rfl⟩
      obtain ⟨o, rfl, rfl⟩ := hHead hFound
      refine ⟨o :: gs, ?_, ?_⟩
      · rw [hFound.1.resolve_right (by simp)]
        rfl
      · rw [hFound.2.resolve_right (by simp)]
        rfl

/-- Types are noted in the same way in every run and whatever they were, and so are the initial values of
globals. -/
theorem check_renote (hQ : Tracks g g' Q) (h : Q cs cs') (s : Script) :
    Parallel (Twins (BothTyped n n' g g') (·.renote g) (·.renote g') Q)
      ((s.renote (n.resolved g)).check cs) ((s.renote (n'.resolved g')).check cs') := by
  refine .twins (checkGlobals_renote hQ h s.globals) fun gs gs' cs cs' ds hGlobals h => ?_
  cases ds with
  | cons =>
    refine .ok ⟨fun hFound => ?_, h, rfl⟩
    obtain ⟨globals, rfl, rfl⟩ := hGlobals hFound
    refine ⟨{ s with globals }, ?_, ?_⟩
    · rw [hFound.1.resolve_right (by simp)]
      rfl
    · rw [hFound.2.resolve_right (by simp)]
      rfl
  | nil =>
    have hStates := fun n g => @checkUntil_renote _ (.renumber g = Renoting.resolved n g) _ _ _ s.states
      (@checkState_renote n g) fun hKept => by rw [hKept]
    refine .both (hStates n g) (hStates n' g') fun states ss ss' more hLeft hRight => .ok ⟨?_, h, rfl⟩
    rintro ⟨hFound, hFound'⟩
    obtain ⟨globals, rfl, rfl⟩ := hGlobals ⟨.inr rfl, .inr rfl⟩
    obtain rfl := hLeft hFound
    obtain rfl := hRight hFound'
    exact ⟨{ s with globals, states }, rfl, rfl⟩

end Script

end Lsl
