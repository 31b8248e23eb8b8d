import Lsl.Proofs.StoredScripts
import Lsl.Proofs.StoredTrees

/-! Complete trees. A tree may lack an initialiser, an else branch, the condition of a for loop or a returned
value; a complete one lacks nothing else. The complete scripts are those that are read back from their
stored form, without their notes, and what is read is always complete. -/
namespace Lsl

open List

variable {g : Global} {state : String}

variable {x e : Expr} {es : List Expr} {ss : List Stmt} {s : Stmt} {α : Type} {ns : List Node} {n : Node}

namespace Expr

mutual

def complete : Expr → Bool
  | missing => false
  | int .. | float .. | string .. | ident _ => true
  | vector _ x y z _ => complete x && complete y && complete z
  | rotation _ x y z s _ => complete x && complete y && complete z && complete s
  | list _ es _ | call _ _ es _ _ => completeAll es
  | unary _ _ x _ | cast _ _ x _ | paren _ x _ | print _ x _ => complete x
  | binary _ _ l r _ _ _ => complete l && complete r
  | assign _ _ v x _ _ _ => v.isSome && complete x
  | incDec _ _ _ v _ => v.isSome

def completeAll : List Expr → Bool
  | [] => true
  | e :: es => complete e && completeAll es

end

def absentOrComplete (x : Expr) : Bool := x.isMissing || x.complete

end Expr

namespace Stmt

mutual

/-- Whether no part of a statement is missing that it cannot do without. -/
def complete : Stmt → Bool
  | missing => false
  | block _ _ ss => completeAll ss
  | expr _ x => x.complete
  | decl _ _ _ init _ => init.absentOrComplete
  | ifThen _ c _ t _ e => c.complete && complete t && (e.isMissing || complete e)
  | .while _ c _ b => c.complete && complete b
  | doWhile _ _ b c => complete b && c.complete
  | .for _ init c step _ b =>
    Expr.completeAll init && c.absentOrComplete && Expr.completeAll step && complete b
  | ret _ v => v.absentOrComplete
  | jump .. | label .. | goto .. | empty _ => true

def completeAll : List Stmt → Bool
  | [] => true
  | s :: ss => complete s && completeAll ss

end

end Stmt

def Block.complete (b : Block) : Bool := Stmt.completeAll b.stmts

def Global.complete : Global → Bool
  | .missing => false
  | .var v => v.init.absentOrComplete
  | .function f => f.body.any Block.complete

def Handler.complete (h : Handler) : Bool := h.body.any Block.complete

def State.complete (s : State) : Bool := s.events.all (·.any Handler.complete)

/-- Whether no part of a script is missing that it cannot do without. -/
def Script.complete (s : Script) : Bool :=
  s.globals.all Global.complete && s.states.all (·.any State.complete)

theorem Expr.completeAll_eq (es : List Expr) : completeAll es = es.all complete := by
  induction es with
  | nil => rfl
  | cons e es ih => rw [completeAll, ih, all_cons]

theorem Stmt.completeAll_eq (ss : List Stmt) : completeAll ss = ss.all complete := by
  induction ss with
  | nil => rfl
  | cons s ss ih => rw [completeAll, ih, all_cons]

theorem Expr.absentOrComplete_cases (h : x.absentOrComplete) : x = .missing ∨ x.complete := by
  cases x with
  | missing => exact .inl rfl
  | _ => exact .inr h

/-! Whether a tree is complete does not depend on notes. -/

theorem Expr.completeAll_sites (ih : ∀ e ∈ es, e.complete = e.sites.all Site.isFilled) :
    completeAll es = (sitesAll es).all Site.isFilled := by
  induction es with
  | nil => rfl
  | cons e es ihTail =>
    rw [completeAll, sitesAll, all_append, ih e (by simp), ihTail fun x hx => ih x (by simp [hx])]

theorem Expr.complete_sites (x : Expr) : x.complete = x.sites.all Site.isFilled := by
  induction x with
  | missing | int | float | string | ident => rfl
  | list p es t ih => exact completeAll_sites ih
  | call p name es c t ih => simp [complete, sites, Site.isFilled, completeAll_sites ih]
  | vector | rotation | binary => simp only [complete, sites, all_append, *]
  | assign p op v x la ra t ih =>
    cases v <;> simp [complete, sites, targetSite, Site.isFilled, ih]
  | incDec p d b v t => cases v <;> rfl
  | unary | cast | paren | print => assumption

theorem Expr.completeAll_eq_sites (es : List Expr) : completeAll es = (sitesAll es).all Site.isFilled :=
  completeAll_sites fun e _ => e.complete_sites

section renoted

variable {n : Renoting}

theorem Site.all_isFilled_renote (ss : List Site) :
    (ss.map (·.renote n)).all isFilled = ss.all isFilled := by
  rw [all_map]
  congr
  funext s
  cases s <;> rfl

theorem Expr.completeAll_renote (es : List Expr) : completeAll (renoteAll n es) = completeAll es := by
  rw [completeAll_eq_sites, sitesAll_renote fun e _ => e.sites_renote, Site.all_isFilled_renote,
    completeAll_eq_sites]

theorem Expr.complete_renote (x : Expr) : (x.renote n).complete = x.complete := by
  rw [complete_sites, sites_renote, Site.all_isFilled_renote, complete_sites]

theorem Expr.absentOrComplete_renote (x : Expr) : (x.renote n).absentOrComplete = x.absentOrComplete := by
  rw [absentOrComplete, isMissing_renote, complete_renote, absentOrComplete]

theorem Stmt.completeAll_renote (ih : ∀ s ∈ ss, (s.renote n).complete = s.complete) :
    completeAll (renoteAll n ss) = completeAll ss := by
  induction ss with
  | nil => rfl
  | cons s ss ihTail =>
    rw [renoteAll, completeAll, completeAll, ih s (by simp), ihTail fun x hx => ih x (by simp [hx])]

theorem Stmt.complete_renote (s : Stmt) : (s.renote n).complete = s.complete := by
  induction s with
  | missing | jump | label | goto | empty => rfl
  | block p scope ss ih => exact completeAll_renote ih
  | expr p x => exact x.complete_renote
  | decl p name ty x entry | ret p x => exact x.absentOrComplete_renote
  | ifThen | whileLoop | doWhile =>
    simp only [renote, complete, Expr.complete_renote, isMissing_renote, *]
  | forLoop p init c step bs b ih =>
    simp only [renote, complete, Expr.absentOrComplete_renote, Expr.completeAll_renote, ih]

theorem Block.complete_renote (b : Option Block) :
    (b.map (·.renote n)).any Block.complete = b.any Block.complete := by
  cases b with
  | none => rfl
  | some b => exact Stmt.completeAll_renote fun s _ => s.complete_renote

theorem Global.complete_renote (g : Global) : (g.renote n).complete = g.complete := by
  cases g with
  | missing => rfl
  | var v => exact v.init.absentOrComplete_renote
  | function f => exact Block.complete_renote f.body

theorem Handler.complete_renote (h : Option Handler) :
    (h.map (·.renote n)).any Handler.complete = h.any Handler.complete := by
  cases h with
  | none => rfl
  | some h => exact Block.complete_renote h.body

theorem State.complete_renote (s : Option State) :
    (s.map (·.renote n)).any State.complete = s.any State.complete := by
  cases s with
  | none => rfl
  | some s =>
    simp only [Option.map_some, Option.any_some, State.complete, State.renote, all_map,
      Function.comp_def, Handler.complete_renote]

theorem Script.complete_forget (k : Stage) (s : Script) : (s.forget k).complete = s.complete := by
  simp only [forget_eq, complete, renote, all_map, Function.comp_def, Global.complete_renote,
    State.complete_renote]

end renoted

namespace Node

theorem toExprs_ofExprs (ih : ∀ e ∈ es, e.complete → (ofExpr e).toExpr = .ok (e.forget .raw))
    (h : Expr.completeAll es) : toExprs (ofExprs es) = .ok (Expr.forgetAll .raw es) := by
  induction es with
  | nil => rfl
  | cons e es ihTail =>
    rw [Expr.completeAll, Bool.and_eq_true] at h
    rw [ofExprs, toExprs, ih e (by simp) h.1, ihTail (fun x hx => ih x (by simp [hx])) h.2]
    rfl

theorem toExpr_ofExpr (h : x.complete) : (ofExpr x).toExpr = .ok (x.forget .raw) := by
  induction x with
  | missing => cases h
  | int | float | string | ident => rfl
  | vector p x y z t ihx ihy ihz =>
    simp only [Expr.complete, Bool.and_eq_true] at h
    simp only [ofExpr, toExpr, toExprs, ihx h.1.1, ihy h.1.2, ihz h.2]
    rfl
  | rotation p x y z s t ihx ihy ihz ihs =>
    simp only [Expr.complete, Bool.and_eq_true] at h
    simp only [ofExpr, toExpr, toExprs, ihx h.1.1.1, ihy h.1.1.2, ihz h.1.2, ihs h.2]
    rfl
  | list p es t ih | call p name es c t ih =>
    simp only [ofExpr, toExpr, toExprs_ofExprs ih h]
    rfl
  | unary p op x t ih | cast p target x t ih | paren p x t ih | print p x t ih =>
    simp only [ofExpr, toExpr, firstExpr, ih h]
    rfl
  | binary p op l r la ra t ihl ihr =>
    simp only [Expr.complete, Bool.and_eq_true] at h
    simp only [ofExpr, toExpr, firstExpr, secondExpr, ihl h.1, ihr h.2]
    rfl
  | assign p op v x la ra t ih =>
    simp only [Expr.complete, Bool.and_eq_true] at h
    obtain ⟨v, rfl⟩ := Option.isSome_iff_exists.mp h.1
    simp only [ofExpr, toExpr, firstExpr, secondExpr, ih h.2]
    rfl
  | incDec p d b v t =>
    obtain ⟨v, rfl⟩ := Option.isSome_iff_exists.mp h
    simp only [ofExpr, toExpr, incDecFlags_bits]
    rfl

theorem toOptionalExpr_ofExpr (h : x.absentOrComplete) : (ofExpr x).toOptionalExpr = .ok (x.forget .raw) := by
  rcases Expr.absentOrComplete_cases h with rfl | h
  · rfl
  · have hRead := toExpr_ofExpr h
    cases hNode : ofExpr x with
    | null => rw [hNode] at hRead; cases hRead
    | node f kids lists => rwa [hNode] at hRead

theorem toExprs_ofExprs_all (h : Expr.completeAll es) :
    toExprs (ofExprs es) = .ok (Expr.forgetAll .raw es) := toExprs_ofExprs (fun _ _ => toExpr_ofExpr) h

theorem toStmts_ofStmts (ih : ∀ s ∈ ss, s.complete → (ofStmt s).toStmt = .ok (s.forget .raw))
    (h : Stmt.completeAll ss) : toStmts (ofStmts ss) = .ok (Stmt.forgetAll .raw ss) := by
  induction ss with
  | nil => rfl
  | cons s ss ihTail =>
    rw [Stmt.completeAll, Bool.and_eq_true] at h
    rw [ofStmts, toStmts, ih s (by simp) h.1, ihTail (fun x hx => ih x (by simp [hx])) h.2]
    rfl

/-- A complete third child is read back, and so is its absence. -/
theorem thirdStmt_ofStmt {a b : Node} (ih : s.complete → (ofStmt s).toStmt = .ok (s.forget .raw))
    (h : (s.isMissing || s.complete) = true) : thirdStmt [a, b, ofStmt s] = .ok (s.forget .raw) := by
  cases s with
  | missing => rfl
  | _ => exact ih h

theorem toStmt_ofStmt (h : s.complete) : (ofStmt s).toStmt = .ok (s.forget .raw) := by
  induction s with
  | missing => cases h
  | jump | label | goto | empty => rfl
  | block p scope ss ih =>
    simp only [ofStmt, toStmt, toStmts_ofStmts ih h]
    rfl
  | expr p x =>
    simp only [ofStmt, toStmt, kid, getD_cons_zero, toExpr_ofExpr h]
    rfl
  | decl p name ty init entry | ret p v =>
    simp only [ofStmt, toStmt, kid, getD_cons_zero, toOptionalExpr_ofExpr h]
    rfl
  | ifThen p c ts t es e iht ihe =>
    simp only [Stmt.complete, Bool.and_eq_true] at h
    simp only [ofStmt, toStmt, kid, getD_cons_zero, toExpr_ofExpr h.1.1, secondStmt, firstStmt,
      iht h.1.2, thirdStmt_ofStmt ihe h.2]
    rfl
  | whileLoop p c bs b ih =>
    simp only [Stmt.complete, Bool.and_eq_true] at h
    simp only [ofStmt, toStmt, kid, getD_cons_zero, toExpr_ofExpr h.1, secondStmt, firstStmt, ih h.2]
    rfl
  | doWhile p bs b c ih =>
    simp only [Stmt.complete, Bool.and_eq_true] at h
    simp only [ofStmt, toStmt, kid, getD_cons_succ, getD_cons_zero, toExpr_ofExpr h.2, firstStmt,
      ih h.1]
    rfl
  | forLoop p init c step bs b ih =>
    simp only [Stmt.complete, Bool.and_eq_true] at h
    simp only [ofStmt, toStmt, kid, listAt, getD_cons_succ, getD_cons_zero,
      toOptionalExpr_ofExpr h.1.1.2, secondStmt, firstStmt, ih h.2, toExprs_ofExprs_all h.1.1.1,
      toExprs_ofExprs_all h.1.2]
    rfl

theorem toBlock_ofBlock {b : Option Block} (h : b.any Block.complete) :
    ∃ c, (ofBlock b).toBlock = .ok c ∧ b.map (·.forget .raw) = some c := by
  obtain ⟨c, rfl, hc⟩ := (Option.any_eq_true _ _).mp h
  have hRead := toStmt_ofStmt (s := .block c.pos c.scope c.stmts) hc
  refine ⟨c.forget .raw, ?_, rfl⟩
  simp only [ofStmt] at hRead
  simp only [ofBlock, toBlock, hRead]
  rfl

theorem toParams_ofParams (ps : List Param) : toParams (ps.map ofParam) = ps.map (·.forget .raw) := by
  induction ps with
  | nil => rfl
  | cons p ps ih => rw [map_cons, map_cons, ← ih]; rfl

theorem toGlobal_ofGlobal (h : g.complete) : (ofGlobal g).toGlobal = .ok (g.forget .raw) := by
  cases g with
  | missing => cases h
  | var v =>
    simp only [ofGlobal, toGlobal, kid, getD_cons_zero, toOptionalExpr_ofExpr h]
    rfl
  | function f =>
    obtain ⟨b, hRead, hBody⟩ := toBlock_ofBlock h
    simp only [ofGlobal, toGlobal, kid, listAt, getD_cons_zero, hRead, toParams_ofParams,
      Global.forget, Function.forget, hBody]
    rfl

theorem toHandler_ofHandler {h : Option Handler} (hComplete : h.any Handler.complete) :
    ∃ h', (ofHandler h).toHandler state = .ok h' ∧ h.map (·.forget .raw) = some h' := by
  obtain ⟨h, rfl, hBody⟩ := (Option.any_eq_true _ _).mp hComplete
  obtain ⟨b, hRead, hBody⟩ := toBlock_ofBlock hBody
  refine ⟨h.forget .raw, ?_, rfl⟩
  simp only [ofHandler, toHandler, kid, listAt, getD_cons_zero, hRead, toParams_ofParams,
    Handler.forget, hBody]
  rfl

theorem mapM_stored {store : Option α → Node} (read : Node → Reading α) {raw : α → α}
    {as : List (Option α)}
    (h : ∀ a ∈ as, ∃ b, read (store a) = .ok b ∧ a.map raw = some b) :
    ∃ bs, (as.map store).mapM read = .ok bs ∧ as.map (Option.map raw) = bs.map some := by
  induction as with
  | nil => exact ⟨[], rfl, rfl⟩
  | cons a as ih =>
    obtain ⟨b, hRead, hRaw⟩ := h a (by simp)
    obtain ⟨bs, hReads, hRaws⟩ := ih fun x hx => h x (by simp [hx])
    refine ⟨b :: bs, ?_, ?_⟩
    · rw [map_cons, mapM_cons, hRead, hReads]
      rfl
    · rw [map_cons, map_cons, hRaw, hRaws]

theorem toState_ofState {s : Option State} (h : s.any State.complete) :
    ∃ s', (ofState s).toState = .ok s' ∧ s.map (·.forget .raw) = some s' := by
  obtain ⟨s, rfl, hEvents⟩ := (Option.any_eq_true _ _).mp h
  obtain ⟨es, hRead, hRaw⟩ := mapM_stored (toHandler s.name)
    fun e he => toHandler_ofHandler (List.all_eq_true.mp hEvents e he)
  refine ⟨s.forget .raw, ?_, rfl⟩
  simp only [ofState, toState, hRead, State.forget, hRaw]
  rfl

/-- A complete script is read back from its stored form, without its notes. -/
theorem toScript_ofScript {s : Script} (h : s.complete) : (ofScript s).toScript = .ok (s.forget .raw) := by
  simp only [Script.complete, Bool.and_eq_true, all_eq_true] at h
  have hGlobals : (s.globals.map ofGlobal).mapM toGlobal = .ok (s.globals.map (·.forget .raw)) := by
    rw [mapM_eq_ok, forall₂_map_left_iff, forall₂_map_right_iff, forall₂_same]
    exact fun g hg => toGlobal_ofGlobal (h.1 g hg)
  obtain ⟨states, hRead, hRaw⟩ := mapM_stored toState fun st hst => toState_ofState (h.2 st hst)
  simp only [ofScript, toScript, listAt, getD_cons_zero, getD_cons_succ, hGlobals, hRead,
    Script.forget, hRaw]
  rfl

end Node

/-- What is read from a node: a complete expression without notes. -/
structure Expr.Plain (x : Expr) : Prop where
  complete : x.complete
  raw : x.forget .raw = x

structure Stmt.Plain (s : Stmt) : Prop where
  complete : s.complete
  raw : s.forget .raw = s

namespace Node

theorem targetOf_plain {v : Ident} (h : targetOf ns = .ok v) : v.forget .raw = v := by
  cases ns with
  | nil => cases h
  | cons n ns =>
    cases n with
    | null => cases h
    | node f kids lists =>
      simp only [targetOf, toIdent] at h
      split at h <;> cases h
      rfl

theorem toExprs_plain (ih : ∀ n ∈ ns, ∀ e, n.toExpr = .ok e → e.Plain) (h : toExprs ns = .ok es) :
    ∀ e ∈ es, e.Plain := by
  induction ns generalizing es with
  | nil => cases h; simp
  | cons n ns ihTail =>
    simp only [toExprs, bind_eq_ok, pure_eq_ok] at h
    obtain ⟨e, he, es, hes, rfl⟩ := h
    rw [forall_mem_cons]
    exact ⟨ih n (by simp) e he, ihTail (fun m hm => ih m (by simp [hm])) hes⟩

theorem firstExpr_plain (ih : ∀ n ∈ ns, ∀ e, n.toExpr = .ok e → e.Plain) (h : firstExpr ns = .ok e) :
    e.Plain := by
  cases ns with
  | nil => cases h
  | cons n ns => exact ih n (by simp) e h

theorem secondExpr_plain (ih : ∀ n ∈ ns, ∀ e, n.toExpr = .ok e → e.Plain)
    (h : secondExpr ns = .ok e) :
    e.Plain := by
  cases ns with
  | nil => cases h
  | cons n ns => exact firstExpr_plain (fun m hm => ih m (by simp [hm])) h

end Node

theorem Expr.Plain.all (h : ∀ e ∈ es, e.Plain) : Expr.completeAll es ∧ Expr.forgetAll .raw es = es := by
  rw [Expr.completeAll_eq, all_eq_true, Expr.forgetAll_eq_map]
  exact ⟨fun e he => (h e he).complete,
    (map_congr_left fun e he => (h e he).raw).trans (map_id' es)⟩

namespace Node

theorem ofComponents_plain {f : NodeFields} {xs : List Expr} (hxs : ∀ x ∈ xs, x.Plain)
    (h : ofComponents f xs = .ok e) : e.Plain := by
  unfold ofComponents at h
  split at h
  · cases h
    simp only [mem_cons, not_mem_nil, or_false, forall_eq_or_imp, forall_eq] at hxs
    obtain ⟨hx, hy, hz⟩ := hxs
    exact ⟨by simp [Expr.complete, hx.complete, hy.complete, hz.complete],
      by rw [Expr.forget, hx.raw, hy.raw, hz.raw]⟩
  · cases h
    simp only [mem_cons, not_mem_nil, or_false, forall_eq_or_imp, forall_eq] at hxs
    obtain ⟨hx, hy, hz, hs⟩ := hxs
    exact ⟨by simp [Expr.complete, hx.complete, hy.complete, hz.complete, hs.complete],
      by rw [Expr.forget, hx.raw, hy.raw, hz.raw, hs.raw]⟩
  · cases h

theorem toExpr_plain (h : n.toExpr = .ok e) : e.Plain := by
  induction n generalizing e with
  | null => cases h
  | node f kids lists ih _ =>
    rw [toExpr] at h
    split at h
    -- The literals and the variable.
    iterate 4
      · cases h
        exact ⟨rfl, rfl⟩
    -- The call and the list.
    iterate 2
      · simp only [bind_eq_ok, pure_eq_ok] at h
        obtain ⟨es, hes, rfl⟩ := h
        obtain ⟨hComplete, hRaw⟩ := Expr.Plain.all (toExprs_plain ih hes)
        exact ⟨hComplete, by simp only [Expr.forget, hRaw, Stage.linked]⟩
    -- The vector and the rotation.
    iterate 2
      · obtain ⟨es, hes, h⟩ := bind_eq_ok.mp h
        exact ofComponents_plain (toExprs_plain ih hes) h
    · simp only [bind_eq_ok, pure_eq_ok] at h
      obtain ⟨v, hv, x, hx, rfl⟩ := h
      have hValue := secondExpr_plain ih hx
      exact ⟨hValue.complete, by rw [Expr.forget, Option.map_some, targetOf_plain hv, hValue.raw]⟩
    · simp only [bind_eq_ok, pure_eq_ok] at h
      obtain ⟨v, hv, rfl⟩ := h
      exact ⟨rfl, by rw [Expr.forget, Option.map_some, targetOf_plain hv]⟩
    -- The operations on a first operand.
    · obtain ⟨a, ha, h⟩ := bind_eq_ok.mp h
      have hFirst := firstExpr_plain ih ha
      split at h
      iterate 4
        · cases h
          exact ⟨hFirst.complete, by rw [Expr.forget, hFirst.raw]⟩
      · simp only [bind_eq_ok, pure_eq_ok] at h
        obtain ⟨b, hb, rfl⟩ := h
        have hSecond := secondExpr_plain ih hb
        exact ⟨by rw [Expr.complete, hFirst.complete, hSecond.complete]; rfl,
          by rw [Expr.forget, hFirst.raw, hSecond.raw]⟩
      · cases h

theorem toOptionalExpr_plain (h : n.toOptionalExpr = .ok e) : e.absentOrComplete ∧ e.forget .raw = e := by
  cases n with
  | null => cases h; exact ⟨rfl, rfl⟩
  | node f kids lists =>
    have hPlain := toExpr_plain h
    exact ⟨by rw [Expr.absentOrComplete, hPlain.complete, Bool.or_true], hPlain.raw⟩

theorem toStmts_plain (ih : ∀ n ∈ ns, ∀ s, n.toStmt = .ok s → s.Plain) (h : toStmts ns = .ok ss) :
    Stmt.completeAll ss ∧ Stmt.forgetAll .raw ss = ss := by
  induction ns generalizing ss with
  | nil => cases h; exact ⟨rfl, rfl⟩
  | cons n ns ihTail =>
    simp only [toStmts, bind_eq_ok, pure_eq_ok] at h
    obtain ⟨s, hs, ss, hss, rfl⟩ := h
    have hHead := ih n (by simp) s hs
    obtain ⟨hComplete, hRaw⟩ := ihTail (fun m hm => ih m (by simp [hm])) hss
    exact ⟨by simp [Stmt.completeAll, hHead.complete, hComplete],
      by rw [Stmt.forgetAll, hHead.raw, hRaw]⟩

theorem firstStmt_plain (ih : ∀ n ∈ ns, ∀ s, n.toStmt = .ok s → s.Plain) (h : firstStmt ns = .ok s) :
    s.Plain := by
  cases ns with
  | nil => cases h
  | cons n ns => exact ih n (by simp) s h

theorem secondStmt_plain (ih : ∀ n ∈ ns, ∀ s, n.toStmt = .ok s → s.Plain)
    (h : secondStmt ns = .ok s) :
    s.Plain := by
  cases ns with
  | nil => cases h
  | cons n ns => exact firstStmt_plain (fun m hm => ih m (by simp [hm])) h

theorem thirdStmt_plain (ih : ∀ n ∈ ns, ∀ s, n.toStmt = .ok s → s.Plain) (h : thirdStmt ns = .ok s) :
    (s.isMissing || s.complete) = true ∧ s.forget .raw = s := by
  unfold thirdStmt at h
  split at h
  · cases h
    exact ⟨rfl, rfl⟩
  · have hPlain := ih _ (by simp) s h
    exact ⟨by rw [hPlain.complete, Bool.or_true], hPlain.raw⟩
  · cases h
    exact ⟨rfl, rfl⟩

theorem toStmt_plain (h : n.toStmt = .ok s) : s.Plain := by
  induction n generalizing s with
  | null => cases h
  | node f kids lists ih _ =>
    rw [toStmt] at h
    split at h <;> simp only [bind_eq_ok, pure_eq_ok, Except.ok.injEq, reduceCtorEq] at h
    · obtain ⟨ss, hss, rfl⟩ := h
      obtain ⟨hComplete, hRaw⟩ := toStmts_plain ih hss
      exact ⟨hComplete, by rw [Stmt.forget, hRaw]; rfl⟩
    · obtain ⟨x, hx, rfl⟩ := h
      have hx := toExpr_plain hx
      exact ⟨hx.complete, by rw [Stmt.forget, hx.raw]⟩
    · obtain ⟨x, hx, rfl⟩ := h
      have hx := toOptionalExpr_plain hx
      exact ⟨hx.1, by rw [Stmt.forget, hx.2]; rfl⟩
    · obtain ⟨c, hc, t, ht, e, he, rfl⟩ := h
      have hc := toExpr_plain hc
      have ht := secondStmt_plain ih ht
      have he := thirdStmt_plain ih he
      exact ⟨by rw [Stmt.complete, hc.complete, ht.complete, he.1]; rfl,
        by rw [Stmt.forget, hc.raw, ht.raw, he.2]; rfl⟩
    · obtain ⟨c, hc, b, hb, rfl⟩ := h
      have hc := toExpr_plain hc
      have hb := secondStmt_plain ih hb
      exact ⟨by rw [Stmt.complete, hc.complete, hb.complete]; rfl,
        by rw [Stmt.forget, hc.raw, hb.raw]; rfl⟩
    · obtain ⟨b, hb, c, hc, rfl⟩ := h
      have hc := toExpr_plain hc
      have hb := firstStmt_plain ih hb
      exact ⟨by rw [Stmt.complete, hc.complete, hb.complete]; rfl,
        by rw [Stmt.forget, hc.raw, hb.raw]; rfl⟩
    · obtain ⟨c, hc, b, hb, init, hInit, step, hStep, rfl⟩ := h
      have hc := toOptionalExpr_plain hc
      have hb := secondStmt_plain ih hb
      obtain ⟨hInit, hInitRaw⟩ := Expr.Plain.all (toExprs_plain (fun _ _ _ => toExpr_plain) hInit)
      obtain ⟨hStep, hStepRaw⟩ := Expr.Plain.all (toExprs_plain (fun _ _ _ => toExpr_plain) hStep)
      exact ⟨by rw [Stmt.complete, hc.1, hb.complete, hInit, hStep]; rfl,
        by rw [Stmt.forget, hc.2, hb.raw, hInitRaw, hStepRaw]; rfl⟩
    · subst h
      exact ⟨rfl, rfl⟩
    · subst h
      exact ⟨rfl, rfl⟩
    · obtain ⟨x, hx, rfl⟩ := h
      have hx := toOptionalExpr_plain hx
      exact ⟨hx.1, by rw [Stmt.forget, hx.2]⟩
    · subst h
      exact ⟨rfl, rfl⟩
    · subst h
      exact ⟨rfl, rfl⟩

theorem toBlock_plain {b : Block} (h : n.toBlock = .ok b) : b.complete ∧ b.forget .raw = b := by
  obtain ⟨s, hs, h⟩ := bind_eq_ok.mp h
  have hPlain := toStmt_plain hs
  cases s with
  | block p scope ss =>
    cases h
    obtain ⟨-, hScope, hStmts⟩ := Stmt.block.inj hPlain.raw
    exact ⟨hPlain.complete, by rw [Block.forget, hScope, hStmts]⟩
  | _ => cases h

theorem toParams_plain (ns : List Node) : (toParams ns).map (·.forget .raw) = toParams ns := by
  induction ns with
  | nil => rfl
  | cons n ns ih =>
    cases n with
    | null => exact ih
    | node f kids lists => exact congrArg (_ :: ·) ih

theorem toGlobal_plain (h : n.toGlobal = .ok g) : g.complete ∧ g.forget .raw = g := by
  cases n with
  | null => cases h
  | node f kids lists =>
    rw [toGlobal] at h
    split at h <;> simp only [bind_eq_ok, pure_eq_ok, reduceCtorEq] at h
    · obtain ⟨x, hx, rfl⟩ := h
      have hx := toOptionalExpr_plain hx
      exact ⟨hx.1, by simp only [Global.forget, GlobalVar.forget, hx.2, Stage.bound]⟩
    · obtain ⟨b, hb, rfl⟩ := h
      have hb := toBlock_plain hb
      refine ⟨hb.1, ?_⟩
      simp only [Global.forget, Function.forget, Option.map_some, hb.2, toParams_plain, Stage.bound]

theorem toHandler_plain {h : Handler} (hRead : n.toHandler state = .ok h) :
    h.complete ∧ h.forget .raw = h := by
  cases n with
  | null => cases hRead
  | node f kids lists =>
    rw [toHandler] at hRead
    split at hRead
    · cases hRead
    · simp only [bind_eq_ok, pure_eq_ok] at hRead
      obtain ⟨b, hb, rfl⟩ := hRead
      have hb := toBlock_plain hb
      refine ⟨hb.1, ?_⟩
      simp only [Handler.forget, Option.map_some, hb.2, toParams_plain, Stage.bound, Option.getD_none]

theorem mapM_plain {read : Node → Reading α} {complete : α → Bool} (raw : α → α)
    (hPlain : ∀ {n a}, read n = .ok a → complete a ∧ raw a = a) {as : List α}
      (h : ns.mapM read = .ok as) :
    as.all complete ∧ as.map raw = as := by
  rw [mapM_eq_ok] at h
  have hAll : ∀ a ∈ as, complete a ∧ raw a = a := by
    intro a ha
    obtain ⟨n, -, hn⟩ := exists_of_mem_right h ha
    exact hPlain hn
  exact ⟨List.all_eq_true.mpr fun a ha => (hAll a ha).1,
    (map_congr_left fun a ha => (hAll a ha).2).trans (map_id' as)⟩

theorem map_some_raw {raw : α → α} {as : List α} (h : as.map raw = as) :
    (as.map some).map (Option.map raw) = as.map some := by
  rw [map_map]
  conv_rhs => rw [← h, map_map]
  rfl

theorem toState_plain {s : State} (h : n.toState = .ok s) : s.complete ∧ s.forget .raw = s := by
  cases n with
  | null => cases h
  | node f kids lists =>
    rw [toState] at h
    split at h
    · cases h
    · simp only [bind_eq_ok, pure_eq_ok] at h
      obtain ⟨es, hes, rfl⟩ := h
      obtain ⟨hComplete, hRaw⟩ := mapM_plain (·.forget .raw) toHandler_plain hes
      refine ⟨?_, ?_⟩
      · rw [State.complete, all_map]
        exact hComplete
      · rw [State.forget, map_some_raw hRaw]
        rfl

/-- What is read from a node is complete and has no notes. -/
theorem toScript_plain {s : Script} (h : n.toScript = .ok s) : s.complete ∧ s.forget .raw = s := by
  cases n with
  | null => cases h
  | node f kids lists =>
    rw [toScript] at h
    split at h
    · cases h
    · simp only [bind_eq_ok, pure_eq_ok] at h
      obtain ⟨gs, hgs, sts, hsts, rfl⟩ := h
      obtain ⟨hGlobals, hGlobalsRaw⟩ := mapM_plain (·.forget .raw) toGlobal_plain hgs
      obtain ⟨hStates, hStatesRaw⟩ := mapM_plain (·.forget .raw) toState_plain hsts
      refine ⟨?_, ?_⟩
      · rw [Script.complete, all_map, hGlobals]
        exact hStates
      · rw [Script.forget, hGlobalsRaw, map_some_raw hStatesRaw]
        rfl

/-- Storing and reading undo each other. A complete script is read back from its stored form without its
notes. What is read from any node is complete and without notes; hence it is read back as it is, and
stored alike once more. -/
theorem stored_read_back :
    (∀ s : Script, s.complete → (ofScript s).toScript = .ok (s.forget .raw)) ∧
      ∀ (n : Node) (s : Script), n.toScript = .ok s →
        s.complete ∧ s.forget .raw = s ∧ (ofScript s).toScript = .ok s ∧
          (ofScript s).toScript.map ofScript = .ok (ofScript s) := by
  refine ⟨fun s h => toScript_ofScript h, ?_⟩
  intro n s h
  obtain ⟨hComplete, hRaw⟩ := toScript_plain h
  have hBack : (ofScript s).toScript = .ok s := by
    rw [toScript_ofScript hComplete, hRaw]
  refine ⟨hComplete, hRaw, hBack, ?_⟩
  rw [hBack, Except.map]

/-- The sample script is complete, and its stored form is accepted. -/
theorem stored_read_back_sample :
    Script.sample.complete ∧ (ofScript .sample).toScript = .ok (Script.sample.forget .raw) ∧
      (ofScript (Script.sample.forget .raw)).toScript = .ok (Script.sample.forget .raw) := by
  have hComplete : Script.sample.complete := by decide
  have hRead := stored_read_back.1 .sample hComplete
  exact ⟨hComplete, hRead, (stored_read_back.2 _ _ hRead).2.2.1⟩

end Node
end Lsl
