import Lsl.Proofs.Resolved
import Lsl.Proofs.Typed

/-! Where labels can be seen. A label belongs to the scope that its statement stands in, and one that
is the whole body of a control statement to the scope around it. Jumps are bound in the scopes of the
blocks around them, so no jump goes into a block from outside. -/
namespace Lsl

open List

variable {chain : List Scope} {here ls ls' : List Symbol} {x : Expr} {ss : List Stmt} {p : Pos}
  {scope : Option Scope}

variable {k : Stage} {around : List Symbol} {s' : Stmt}

namespace Stmt

def label? : Stmt → Option Symbol
  | label _ _ entry => entry
  | _ => none

/-- The labels that are bodies of a control statement. -/
def bodyLabels : Stmt → List Symbol
  | ifThen _ _ _ t _ e => t.label?.toList ++ e.label?.toList
  | .while _ _ _ b | doWhile _ _ b _ | .for _ _ _ _ _ b => b.label?.toList
  | _ => []

/-- The labels that a statement adds to the scope it stands in. -/
def own (s : Stmt) : List Symbol := s.label?.toList ++ s.bodyLabels

def ownAll (ss : List Stmt) : List Symbol := ss.flatMap own

theorem own_ifThen (p : Pos) (c : Expr) (ts : Option Scope) (t : Stmt) (es : Option Scope) (e : Stmt) :
    (ifThen p c ts t es e).own = t.label?.toList ++ e.label?.toList := rfl

theorem own_doWhile (p : Pos) (bs : Option Scope) (b : Stmt) (c : Expr) :
    (doWhile p bs b c).own = b.label?.toList := rfl

mutual

/-- Each jump of a statement is bound to a label in sight: to one in `here`, unless it stands in a
block, from which the labels `around` are in sight and those of the block. -/
def Scoped (here around : List Symbol) : Stmt → Prop
  | block _ _ ss => ScopedAll (ownAll ss ++ around) (ownAll ss ++ around) ss
  | ifThen _ _ _ t _ e => Scoped here (t.own ++ around) t ∧ Scoped here (e.own ++ around) e
  | .while _ _ _ b | doWhile _ _ b _ | .for _ _ _ _ _ b => Scoped here (b.own ++ around) b
  | jump _ _ entry => ∃ sym, entry = some sym ∧ sym ∈ here
  | missing | expr .. | decl .. | label .. | ret .. | goto .. | empty _ => True

def ScopedAll (here around : List Symbol) : List Stmt → Prop
  | [] => True
  | s :: ss => Scoped here around s ∧ ScopedAll here around ss

end

end Stmt

def LabelAmong (ls : List Symbol) (sym : Symbol) : Prop := sym.kind = .label → sym ∈ ls

theorem Scope.All.mono {sc : Scope} (h : sc.All (LabelAmong ls)) (hSubset : ls ⊆ ls') :
    sc.All (LabelAmong ls') :=
  fun sym hs hKind => hSubset (h sym hs hKind)

namespace Stmt

/-- The scopes noted at a statement hold the labels of what they are the scopes of, and no others. -/
def Frames : Stmt → Prop
  | block _ scope ss => ∀ sc ∈ scope.toList, sc.All (LabelAmong (ownAll ss))
  | ifThen _ _ ts t es e => (∀ sc ∈ ts.toList, sc.All (LabelAmong t.own)) ∧
      ∀ sc ∈ es.toList, sc.All (LabelAmong e.own)
  | .while _ _ bs b | doWhile _ bs b _ | .for _ _ _ _ bs b =>
    ∀ sc ∈ bs.toList, sc.All (LabelAmong b.own)
  | _ => True

def Framed (s : Stmt) : Prop := ∀ t ∈ s.parts, t.Frames

attribute [local simp] Frames

variable {bs : Option Scope} {b : Stmt}

theorem framed_block : (block p scope ss).Framed ↔
    (∀ sc ∈ scope.toList, sc.All (LabelAmong (ownAll ss))) ∧ ∀ s ∈ ss, s.Framed := by
  simp only [Framed, parts, mem_cons, forall_eq_or_imp, Frames, mem_partsAll]
  refine and_congr_right fun _ => ⟨fun h s hs t ht => h t ⟨s, hs, ht⟩, ?_⟩
  rintro h t ⟨s, hs, ht⟩
  exact h s hs t ht

theorem framed_ifThen {es : Option Scope} {e : Stmt} : (ifThen p x bs b es e).Framed ↔
    ((∀ sc ∈ bs.toList, sc.All (LabelAmong b.own)) ∧ b.Framed) ∧
      (∀ sc ∈ es.toList, sc.All (LabelAmong e.own)) ∧ e.Framed := by
  simp only [Framed, parts, cons_append, mem_cons, mem_append, or_imp, forall_and,
    forall_eq, Frames]
  exact and_and_and_comm

theorem framed_while : (Stmt.while p x bs b).Framed ↔
    (∀ sc ∈ bs.toList, sc.All (LabelAmong b.own)) ∧ b.Framed := by
  simp [Framed, parts]

theorem framed_doWhile : (doWhile p bs b x).Framed ↔
    (∀ sc ∈ bs.toList, sc.All (LabelAmong b.own)) ∧ b.Framed := by
  simp [Framed, parts]

theorem framed_for {init step : List Expr} : (Stmt.for p init x step bs b).Framed ↔
    (∀ sc ∈ bs.toList, sc.All (LabelAmong b.own)) ∧ b.Framed := by
  simp [Framed, parts]

end Stmt

def Declaring.Adds (d d' : Declaring) (ls : List Symbol) : Prop :=
  ∀ sym ∈ d'.inner.symbols, sym.kind = .label → sym ∈ d.inner.symbols ∨ sym ∈ ls

namespace Declaring

variable {d d' d'' : Declaring} {m : List Note} {scopes : List Scope}

theorem Adds.of_inner_eq (h : d'.inner = d.inner) : Adds d d' ls :=
  fun _ hs _ => Or.inl (h ▸ hs)

theorem Adds.trans (h : Adds d d' ls) (h' : Adds d' d'' ls') : Adds d d'' (ls ++ ls') := by
  intro sym hs hKind
  rcases h' sym hs hKind with hs | hs
  · rcases h sym hs hKind with hs | hs
    · exact Or.inl hs
    · exact Or.inr (mem_append_left _ hs)
  · exact Or.inr (mem_append_right _ hs)

/-- A walk adds no label to the open scope that its notes do not declare. -/
theorem Walks.adds (h : Walks d d' m scopes) : Adds d d' (labelsIn m) := by
  intro sym hs hKind
  obtain ⟨new, hInner, hNew⟩ := h.inner
  rw [hInner, mem_append] at hs
  rcases hs with hs | hs
  · exact Or.inl hs
  · obtain ⟨kind, ty, hMem⟩ := mem_declaredIn.mp (hNew sym hs)
    obtain rfl : kind = .label := (h.made kind ty sym hMem).1.symm.trans hKind
    exact Or.inr (mem_labelsIn.mpr ⟨ty, hMem⟩)

/-- A scope that is opened for a walk holds the labels that the walk adds. -/
theorem Adds.opened (h : Adds { d with inner := ⟨[]⟩, outer := d.chain } d' ls) :
    d'.inner.All (LabelAmong ls) := by
  intro sym hs hKind
  rcases h sym hs hKind with hs | hs
  · cases hs
  · exact hs

/-- The scope around is open again when a scope is closed. -/
theorem Walks.inner_closed (h : Walks { d with inner := ⟨[]⟩, outer := d.chain } d' m scopes) :
    d'.outer.headD ⟨[]⟩ = d.inner := by
  simp [h.outer, chain]

end Declaring

theorem labelsIn_paramNotes (ps : List Param) : labelsIn (paramNotes ps) = [] := by
  induction ps with
  | nil => rfl
  | cons p ps ih => exact ih

namespace Declares

open Declaring (Walks Adds)

variable {d d' : Declaring}

theorem expr_adds {x' : Expr} (h : expr x d = (x', d')) : Adds d d' [] :=
  x'.labelsIn_notes ▸ (expr_walks h).adds

theorem optional_adds {x' : Expr} (h : optional x d = (x', d')) : Adds d d' [] :=
  x'.labelsIn_notes ▸ (optional_walks h).adds

theorem exprs_adds {es es' : List Expr} (h : exprs es d = (es', d')) : Adds d d' [] :=
  Expr.labelsIn_notesAll es' ▸ (exprs_walks h).adds

/-- What the declaration of names leaves of a statement: it adds its labels to the open scope and notes
the scopes in it. -/
structure Places (d d' : Declaring) (s' : Stmt) : Prop where
  adds : Adds d d' s'.own
  framed : s'.Framed

theorem stmts_places {ss' : List Stmt} (ih : ∀ s ∈ ss, ∀ d s' d', stmt s d = (s', d') → Places d d'
    s')
    (h : stmts ss d = (ss', d')) :
    Adds d d' (Stmt.ownAll ss') ∧ ∀ s ∈ ss', s.Framed := by
  induction ss generalizing d ss' with
  | nil =>
    cases h
    exact ⟨Adds.of_inner_eq rfl, by simp⟩
  | cons s ss ihList =>
    simp only [stmts, state_bind_eq, state_pure_eq] at h
    obtain ⟨s', _, hs, ss', _, hss, rfl, rfl⟩ := h
    have hHead := ih s (by simp) _ _ _ hs
    obtain ⟨hAdds, hFramed⟩ := ihList (fun t ht => ih t (by simp [ht])) hss
    exact ⟨hHead.adds.trans hAdds, by simpa using ⟨hHead.framed, hFramed⟩⟩

/-- A block leaves the scope around as it was. -/
theorem block_inner (h : stmt (.block p scope ss) d = (s', d')) : d'.inner = d.inner := by
  simp only [stmt, state_bind_eq, state_pure_eq, enter_eq, leave_eq] at h
  obtain ⟨_, _, rfl, ss', _, hss, sc, _, ⟨rfl, rfl⟩, rfl, rfl⟩ := h
  exact (stmts_walks hss).inner_closed

theorem label_places {name : String} {entry : Option Symbol} (h : stmt (.label p name entry) d = (s', d')) :
    Places d d' s' ∧ s'.own = s'.label?.toList := by
  have hAdds := (label_walks h).adds
  simp only [stmt, state_bind_eq, state_pure_eq] at h
  obtain ⟨_, _, _, _, _, _, entry', _, _, rfl, rfl⟩ := h
  have hOwn : labelsIn (Stmt.label p name entry').notes = (Stmt.label p name entry').own := by
    cases entry' <;> rfl
  exact ⟨⟨hOwn ▸ hAdds, by simp [Stmt.Framed, Stmt.parts, Stmt.Frames]⟩, by
    simp [Stmt.own, Stmt.bodyLabels]⟩

/-- The body of a control statement adds to the scope around only the label that it is. -/
theorem body_places {s : Stmt} (ih : ∀ d s' d', stmt s d = (s', d') → Places d d' s')
    (h : body s (stmt s) d = ((scope, s'), d')) :
    Adds d d' s'.label?.toList ∧ (∀ sc ∈ scope.toList, sc.All (LabelAmong s'.own)) ∧ s'.Framed := by
  cases s with
  | missing =>
    cases h
    exact ⟨Adds.of_inner_eq rfl, by simp, by simp [Stmt.Framed, Stmt.parts]⟩
  | block p sc ss =>
    simp only [body, state_bind_eq, state_pure_eq] at h
    obtain ⟨t, _, ht, hEq, rfl⟩ := h
    cases hEq
    exact ⟨Adds.of_inner_eq (block_inner ht), by simp, (ih _ _ _ ht).framed⟩
  | label p name entry =>
    simp only [body, state_bind_eq, state_pure_eq] at h
    obtain ⟨t, _, ht, hEq, rfl⟩ := h
    cases hEq
    obtain ⟨hPlaces, hOwn⟩ := label_places ht
    exact ⟨hOwn ▸ hPlaces.adds, by simp, hPlaces.framed⟩
  | _ =>
    simp only [body, state_bind_eq, state_pure_eq, enter_eq, leave_eq] at h
    obtain ⟨_, _, rfl, t, _, ht, sc, _, ⟨rfl, rfl⟩, hEq, rfl⟩ := h
    cases hEq
    have hPlaces := ih _ _ _ ht
    exact ⟨Adds.of_inner_eq (stmt_walks ht).inner_closed, by simpa using hPlaces.adds.opened,
      hPlaces.framed⟩

/-- The declaration of names puts each label into the scope that its statement stands in. -/
theorem stmt_places (s : Stmt) (d : Declaring) (s' : Stmt) (d' : Declaring) (h : stmt s d = (s', d')) :
    Places d d' s' := by
  induction s generalizing d s' d' with
  | missing =>
    cases h
    exact ⟨Adds.of_inner_eq rfl, by simp [Stmt.Framed, Stmt.parts]⟩
  | block p scope ss ih =>
    refine ⟨Adds.of_inner_eq (block_inner h), ?_⟩
    simp only [stmt, state_bind_eq, state_pure_eq, enter_eq, leave_eq] at h
    obtain ⟨_, _, rfl, ss', _, hss, sc, _, ⟨rfl, rfl⟩, rfl, rfl⟩ := h
    obtain ⟨hAdds, hFramed⟩ := stmts_places ih hss
    exact Stmt.framed_block.mpr ⟨by simpa using hAdds.opened, hFramed⟩
  | expr p x =>
    simp only [stmt, state_bind_eq, state_pure_eq] at h
    obtain ⟨x', _, hx, rfl, rfl⟩ := h
    exact ⟨expr_adds hx, by
      simp [Stmt.Framed, Stmt.parts, Stmt.Frames]⟩
  | decl p name ty init entry =>
    simp only [stmt, state_bind_eq, state_pure_eq] at h
    obtain ⟨x', _, hx, entry', _, hEntry, rfl, rfl⟩ := h
    have hFirst := optional_adds hx
    exact ⟨hFirst.trans (declareLocal_walks hEntry).adds, by
      simp [Stmt.Framed, Stmt.parts, Stmt.Frames]⟩
  | ifThen p c ts t es e iht ihe =>
    obtain ⟨c', _, ts', t', _, hc, ht, hRest⟩ := ifThen_cases h
    have hCond := expr_adds hc
    obtain ⟨hThen, hThenFramed⟩ := body_places iht ht
    obtain ⟨rfl, rfl, rfl⟩ | ⟨_, es', e', he, rfl⟩ := hRest
    · refine ⟨by simpa [Stmt.own_ifThen, Stmt.label?] using hCond.trans hThen, ?_⟩
      exact Stmt.framed_ifThen.mpr ⟨hThenFramed, by simp [Stmt.Framed, Stmt.parts]⟩
    · obtain ⟨hElse, hElseFramed⟩ := body_places ihe he
      refine ⟨?_, Stmt.framed_ifThen.mpr ⟨hThenFramed, hElseFramed⟩⟩
      simpa [Stmt.own_ifThen] using (hCond.trans hThen).trans hElse
  | whileLoop p c bs b ih =>
    simp only [stmt, state_bind_eq, state_pure_eq] at h
    obtain ⟨c', _, hc, ⟨bs', b'⟩, _, hb, rfl, rfl⟩ := h
    have hCond := expr_adds hc
    obtain ⟨hBody, hFramed⟩ := body_places ih hb
    exact ⟨hCond.trans hBody, Stmt.framed_while.mpr hFramed⟩
  | doWhile p bs b c ih =>
    simp only [stmt, state_bind_eq, state_pure_eq] at h
    obtain ⟨⟨bs', b'⟩, _, hb, c', _, hc, rfl, rfl⟩ := h
    have hCond := expr_adds hc
    obtain ⟨hBody, hFramed⟩ := body_places ih hb
    refine ⟨?_, Stmt.framed_doWhile.mpr hFramed⟩
    simpa [Stmt.own_doWhile] using hBody.trans hCond
  | forLoop p init c step bs b ih =>
    simp only [stmt, state_bind_eq, state_pure_eq] at h
    obtain ⟨init', _, hi, c', _, hc, step', _, hs, ⟨bs', b'⟩, _, hb, rfl, rfl⟩ := h
    have hInit := exprs_adds hi
    have hCond := optional_adds hc
    have hStep := exprs_adds hs
    obtain ⟨hBody, hFramed⟩ := body_places ih hb
    exact ⟨((hInit.trans hCond).trans hStep).trans hBody, Stmt.framed_for.mpr hFramed⟩
  | label p name entry => exact (label_places h).1
  | ret p v =>
    simp only [stmt, state_bind_eq, state_pure_eq] at h
    obtain ⟨x', _, hx, rfl, rfl⟩ := h
    exact ⟨optional_adds hx, by
      simp [Stmt.Framed, Stmt.parts, Stmt.Frames]⟩
  | _ =>
    cases h
    exact ⟨Adds.of_inner_eq rfl, by simp [Stmt.Framed, Stmt.parts, Stmt.Frames]⟩

/-- The scope of a body holds the labels of its statements. -/
theorem frame_framed {ps ps' : List Param} {b b' : Block} (h : frame ps b d = ((ps', b'), d')) :
    (Stmt.block b'.pos b'.scope b'.stmts).Framed := by
  obtain ⟨_, d₁, ss', d₂, rfl, hps, hss, rfl, rfl⟩ := frame_steps h
  obtain ⟨hAdds, hFramed⟩ := stmts_places (fun s _ => stmt_places s) hss
  have hParams := (params_walks hps).recount.adds
  rw [labelsIn_paramNotes] at hParams
  exact Stmt.framed_block.mpr ⟨by simpa using (hParams.trans hAdds).opened, hFramed⟩

end Declares

namespace Stmt

theorem label?_forget (hk : k ≠ .raw) (s : Stmt) : (s.forget k).label? = s.label? := by
  cases k <;> cases s <;> first | rfl | exact absurd rfl hk

theorem bodyLabels_forget (hk : k ≠ .raw) (s : Stmt) : (s.forget k).bodyLabels = s.bodyLabels := by
  cases s <;> simp only [forget, bodyLabels, label?_forget hk]

theorem own_forget (hk : k ≠ .raw) (s : Stmt) : (s.forget k).own = s.own := by
  rw [own, own, label?_forget hk, bodyLabels_forget hk]

theorem ownAll_forget (hk : k ≠ .raw) (ss : List Stmt) : ownAll (forgetAll k ss) = ownAll ss := by
  induction ss with
  | nil => rfl
  | cons s ss ih =>
    unfold ownAll at ih ⊢
    rw [forgetAll, flatMap_cons, flatMap_cons, own_forget hk, ih]

theorem link_own (here around : List Scope) (s : Stmt) : (s.link here around).own = s.own := by
  have hDeclared : Stage.declared ≠ .raw := by decide
  rw [← own_forget hDeclared, link_keeps (by decide), own_forget hDeclared]

theorem linkAll_ownAll (here around : List Scope) (ss : List Stmt) :
    ownAll (linkAll here around ss) = ownAll ss := by
  have hDeclared : Stage.declared ≠ .raw := by decide
  rw [← ownAll_forget hDeclared, linkAll_keeps fun s _ => s.link_keeps (by decide), ownAll_forget hDeclared]

/-- The scopes around a block with its labels hold the labels in sight. -/
theorem blockChain_among (hScope : ∀ sc ∈ scope.toList, sc.All (LabelAmong (ownAll ss)))
    (hAround : ∀ sc ∈ chain, sc.All (LabelAmong around)) :
    ∀ sc ∈ blockChain scope chain, sc.All (LabelAmong (ownAll ss ++ around)) :=
  blockChain_all (fun sc hsc => (hScope sc hsc).mono (subset_append_left ..))
    fun sc hsc => (hAround sc hsc).mono (subset_append_right ..)

theorem bodyAround_among {own : List Symbol} (hScope : ∀ sc ∈ scope.toList, sc.All (LabelAmong own))
    (hAround : ∀ sc ∈ chain, sc.All (LabelAmong around)) :
    ∀ sc ∈ bodyAround scope chain, sc.All (LabelAmong (own ++ around)) :=
  bodyAround_all (fun sc hsc => (hScope sc hsc).mono (subset_append_left ..))
    fun sc hsc => (hAround sc hsc).mono (subset_append_right ..)

theorem linkAll_scoped {hs as : List Scope}
    (ih : ∀ s ∈ ss, ∀ hs as here around, (∀ sc ∈ hs, sc.All (LabelAmong here)) →
      (∀ sc ∈ as, sc.All (LabelAmong around)) → s.Framed → s.linkProblems hs as = [] →
        (s.link hs as).Scoped here around)
    (hHere : ∀ sc ∈ hs, sc.All (LabelAmong here)) (hAround : ∀ sc ∈ as, sc.All (LabelAmong around))
    (hFramed : ∀ s ∈ ss, s.Framed) (hNone : linkAllProblems hs as ss = []) :
    ScopedAll here around (linkAll hs as ss) := by
  induction ss with
  | nil => trivial
  | cons s ss ihList =>
    simp only [mem_cons, forall_eq_or_imp] at ih hFramed
    simp only [linkAllProblems, append_eq_nil_iff] at hNone
    exact ⟨ih.1 hs as here around hHere hAround hFramed.1 hNone.1,
      ihList ih.2 hFramed.2 hNone.2⟩

/-- Resolution binds each jump to a label in sight. -/
theorem link_scoped (s : Stmt) (hs as : List Scope) (here around : List Symbol)
    (hHere : ∀ sc ∈ hs, sc.All (LabelAmong here)) (hAround : ∀ sc ∈ as, sc.All (LabelAmong around))
    (hFramed : s.Framed) (hNone : s.linkProblems hs as = []) : (s.link hs as).Scoped here around := by
  induction s generalizing hs as here around with
  | block p scope ss ih =>
    obtain ⟨hScope, hFramed⟩ := framed_block.mp hFramed
    have hChain := blockChain_among hScope hAround
    simp only [link, Scoped, linkAll_ownAll]
    exact linkAll_scoped ih hChain hChain hFramed hNone
  | ifThen p c ts t es e iht ihe =>
    obtain ⟨⟨hts, ht⟩, hes, he⟩ := framed_ifThen.mp hFramed
    simp only [linkProblems, append_eq_nil_iff] at hNone
    simp only [link, Scoped, link_own]
    exact ⟨iht _ _ _ _ hHere (bodyAround_among hts hAround) ht hNone.1.2,
      ihe _ _ _ _ hHere (bodyAround_among hes hAround) he hNone.2⟩
  | whileLoop p c bs b ih =>
    obtain ⟨hbs, hb⟩ := framed_while.mp hFramed
    simp only [linkProblems, append_eq_nil_iff] at hNone
    simp only [link, Scoped, link_own]
    exact ih _ _ _ _ hHere (bodyAround_among hbs hAround) hb hNone.2
  | doWhile p bs b c ih =>
    obtain ⟨hbs, hb⟩ := framed_doWhile.mp hFramed
    simp only [linkProblems, append_eq_nil_iff] at hNone
    simp only [link, Scoped, link_own]
    exact ih _ _ _ _ hHere (bodyAround_among hbs hAround) hb hNone.1
  | forLoop p init c step bs b ih =>
    obtain ⟨hbs, hb⟩ := framed_for.mp hFramed
    simp only [linkProblems, append_eq_nil_iff] at hNone
    simp only [link, Scoped, link_own]
    exact ih _ _ _ _ hHere (bodyAround_among hbs hAround) hb hNone.2
  | jump p l entry =>
    have hLinks := (rebind_assures hHere (by simp) entry).holds hNone
    obtain ⟨sym, hEntry, hServes, hAmong⟩ := hLinks.mem_bound (by simp) (List.mem_singleton.mpr rfl)
    exact ⟨sym, hEntry, hAmong (by simpa [SymbolKind.serves] using hServes)⟩
  | _ => trivial

theorem scopedAll_forget
    (ih : ∀ s ∈ ss, ∀ here around, (s.forget .resolved).Scoped here around ↔ s.Scoped here around) :
    ScopedAll here around (forgetAll .resolved ss) ↔ ScopedAll here around ss := by
  induction ss with
  | nil => rfl
  | cons s ss ihTail =>
    rw [forgetAll, ScopedAll, ScopedAll, ih s (by simp), ihTail fun x hx => ih x (by simp [hx])]

/-- Types play no part in the binding of jumps. -/
theorem scoped_forget (s : Stmt) (here around : List Symbol) :
    (s.forget .resolved).Scoped here around ↔ s.Scoped here around := by
  induction s generalizing here around with
  | block p scope ss ih =>
    simp only [forget, Scoped, ownAll_forget (by decide : Stage.resolved ≠ .raw), scopedAll_forget ih]
  | ifThen p c ts t es e iht ihe =>
    simp only [forget, Scoped, own_forget (by decide : Stage.resolved ≠ .raw), iht, ihe]
  | whileLoop p c bs b ih | doWhile p bs b c ih | forLoop p init c step bs b ih =>
    simp only [forget, Scoped, own_forget (by decide : Stage.resolved ≠ .raw), ih]
  | _ => rfl

end Stmt
end Lsl
