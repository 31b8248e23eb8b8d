import Lsl.Proofs.NoteChanges

/-! What the declaration of names establishes. One relation says all that a piece of the walk does to
the open scopes, to what was found, and to the symbols it notes; it composes along the walk, and the
facts about bodies and scripts are read off it. -/
namespace Lsl

open List

variable {x x' : Expr} {ss ss' : List Stmt} {ps ps' : List Param}

variable {chain : List Scope} {name : String} {sym : Symbol} {D : Symbol → Prop} {es : List Expr}
  {entry : Option Symbol} {pos p : Pos} {s' : Stmt}

namespace Scope

def All (D : Symbol → Prop) (s : Scope) : Prop := ∀ sym ∈ s.symbols, D sym

end Scope

namespace Declaring

/-- The labels that are declared between two states of a walk have numbers of their own. -/
structure Numbers (d d' : Declaring) (labels : List Symbol) : Prop where
  counted : d.labels ≤ d'.labels
  numbered : ∀ s ∈ labels, d.labels ≤ s.index ∧ s.index < d'.labels
  distinct : (labels.map (·.index)).Nodup

theorem Numbers.none {d d' : Declaring} {ls : List Symbol} (hNone : ls = []) (h : d.labels ≤ d'.labels) :
    Numbers d d' ls :=
  ⟨h, by simp [hNone], by simp [hNone]⟩

/-- The labels of a later piece have larger numbers. -/
theorem Numbers.trans {d d' d'' : Declaring} {ls ls' : List Symbol} (h : Numbers d d' ls)
    (h' : Numbers d' d'' ls') : Numbers d d'' (ls ++ ls') where
  counted := Nat.le_trans h.counted h'.counted
  numbered := by
    intro x hx
    have hCounted := h.counted
    have hCounted' := h'.counted
    rcases List.mem_append.mp hx with hx | hx
    · have := h.numbered x hx
      omega
    · have := h'.numbered x hx
      omega
  distinct := by
    rw [map_append, nodup_append]
    refine ⟨h.distinct, h'.distinct, ?_⟩
    intro i hi j hj
    obtain ⟨x, hx, rfl⟩ := List.mem_map.mp hi
    obtain ⟨y, hy, rfl⟩ := List.mem_map.mp hj
    have := h.numbered x hx
    have := h'.numbered y hy
    omega

def Reports (d d' : Declaring) : Prop :=
  ∃ ds, d'.diagnostics = d.diagnostics ++ ds ∧ ∀ x ∈ ds, x.isError = true

theorem Reports.trans {d d' d'' : Declaring} (h : Reports d d') (h' : Reports d' d'') : Reports d d'' := by
  obtain ⟨ds, hds, hErrors⟩ := h
  obtain ⟨ds', hds', hErrors'⟩ := h'
  refine ⟨ds ++ ds', by rw [hds', hds, append_assoc], ?_⟩
  simpa [or_imp, forall_and] using ⟨hErrors, hErrors'⟩

theorem Reports.eq_nil {d d' : Declaring} (h : Reports d d') (hNone : d'.diagnostics = []) :
    d.diagnostics = [] := by
  obtain ⟨ds, hds, _⟩ := h
  rw [hds] at hNone
  exact (List.append_eq_nil_iff.mp hNone).1

/-- All that a piece of a declaration walk does: it leaves the scopes around alone, adds to the open
scope only what its notes declare, gives each label a number of its own, and reports errors only.
Unless something has been found by its end, every name is declared, and each variable means a symbol
that was in an open scope or was declared on the way. -/
structure Walks (d d' : Declaring) (notes : List Note) (scopes : List Scope) : Prop where
  outer : d'.outer = d.outer
  round : d'.round = d.round
  found : Reports d d'
  inner : ∃ new, d'.inner.symbols = d.inner.symbols ++ new ∧ ∀ s ∈ new, s ∈ declaredIn notes
  made : ∀ kind ty s, Note.declares kind ty (some s) ∈ notes →
    s.kind = kind ∧ s.ty = ty ∧ s.round = d.round
  labels : Numbers d d' (labelsIn notes)
  bound : d'.diagnostics = [] → ∀ kind ty entry, Note.declares kind ty entry ∈ notes →
    entry.isSome = true
  known : d'.diagnostics = [] → ∀ D : Symbol → Prop, (∀ sc ∈ d.chain, sc.All D) →
    (∀ s ∈ declaredIn notes, D s) →
    (∀ entry, Note.uses .local entry ∈ notes →
      ∃ s, entry = some s ∧ s.kind.serves .local = true ∧ D s) ∧
    ∀ sc ∈ scopes, sc.All D

variable {d d' d'' : Declaring} {m n : List Note} {s t : List Scope}

/-- What was not found by the end of a walk was not found before. -/
theorem Walks.diagnostics_eq_nil (h : Walks d d' m s) (hNone : d'.diagnostics = []) :
    d.diagnostics = [] :=
  h.found.eq_nil hNone

/-- The open scopes after a walk have a property if those before have it and all that is declared on
the way. -/
theorem Walks.chain_all (h : Walks d d' m s) (hChain : ∀ sc ∈ d.chain, sc.All D)
    (hDeclared : ∀ x ∈ declaredIn m, D x) : ∀ sc ∈ d'.chain, sc.All D := by
  obtain ⟨new, hInner, hNew⟩ := h.inner
  intro sc hsc
  rcases List.mem_cons.mp hsc with rfl | hOuter
  · intro x hx
    rw [hInner, mem_append] at hx
    rcases hx with hx | hx
    · exact hChain d.inner (by simp [chain]) x hx
    · exact hDeclared x (hNew x hx)
  · rw [h.outer] at hOuter
    exact hChain sc (by simp [chain, hOuter])

theorem Walks.trans (h : Walks d d' m s) (h' : Walks d' d'' n t) :
    Walks d d'' (m ++ n) (s ++ t) where
  outer := h'.outer.trans h.outer
  round := h'.round.trans h.round
  found := h.found.trans h'.found
  inner := by
    obtain ⟨new, hNew, hDeclared⟩ := h.inner
    obtain ⟨new', hNew', hDeclared'⟩ := h'.inner
    refine ⟨new ++ new', by rw [hNew', hNew, append_assoc], ?_⟩
    intro x hx
    rcases List.mem_append.mp hx with hx | hx
    · simp [hDeclared x hx]
    · simp [hDeclared' x hx]
  made := by
    intro kind ty x hx
    rcases List.mem_append.mp hx with hx | hx
    · exact h.made kind ty x hx
    · rw [← h.round]
      exact h'.made kind ty x hx
  labels := labelsIn_append m n ▸ h.labels.trans h'.labels
  bound := by
    intro hNone kind ty entry hMem
    rcases List.mem_append.mp hMem with hMem | hMem
    · exact h.bound (h'.diagnostics_eq_nil hNone) kind ty entry hMem
    · exact h'.bound hNone kind ty entry hMem
  known := by
    intro hNone D hChain hDeclared
    simp only [declaredIn_append, mem_append, or_imp, forall_and] at hDeclared
    obtain ⟨hUses, hScopes⟩ := h.known (h'.diagnostics_eq_nil hNone) D hChain hDeclared.1
    obtain ⟨hUses', hScopes'⟩ :=
      h'.known hNone D (h.chain_all hChain hDeclared.1) hDeclared.2
    constructor
    · intro entry hEntry
      rcases List.mem_append.mp hEntry with hEntry | hEntry
      · exact hUses entry hEntry
      · exact hUses' entry hEntry
    · intro sc hsc
      rcases List.mem_append.mp hsc with hsc | hsc
      · exact hScopes sc hsc
      · exact hScopes' sc hsc

/-- A piece of a walk inside a scope of its own, which is noted when it is closed. -/
theorem Walks.bracket (h : Walks { d with inner := ⟨[]⟩, outer := d.chain } d' m s) :
    Walks d { d' with inner := d'.outer.headD ⟨[]⟩, outer := d'.outer.tail } m
      (d'.inner :: s) where
  outer := by simp [h.outer, chain]
  round := h.round
  found := h.found
  inner := ⟨[], by simp [h.outer, chain]⟩
  made := h.made
  labels := ⟨h.labels.counted, h.labels.numbered, h.labels.distinct⟩
  bound := h.bound
  known := by
    intro hNone D hChain hDeclared
    have hOpen : ∀ sc ∈ ({ d with inner := ⟨[]⟩, outer := d.chain } : Declaring).chain,
        sc.All D := by
      intro sc hsc
      rcases List.mem_cons.mp hsc with rfl | hsc
      · intro x hx
        cases hx
      · exact hChain sc hsc
    obtain ⟨hUses, hScopes⟩ := h.known hNone D hOpen hDeclared
    refine ⟨hUses, ?_⟩
    intro sc hsc
    rcases List.mem_cons.mp hsc with rfl | hsc
    · exact h.chain_all hOpen hDeclared d'.inner (by simp [chain])
    · exact hScopes sc hsc

theorem Walks.report (ds : List Diagnostic) (hErrors : ∀ x ∈ ds, x.isError = true) :
    Walks d { d with diagnostics := d.diagnostics ++ ds } [] [] where
  outer := rfl
  round := rfl
  found := ⟨ds, rfl, hErrors⟩
  inner := ⟨[], by simp⟩
  made := by simp
  labels := .none rfl (Nat.le_refl _)
  bound := by simp
  known := by simp

/-- A symbol is declared in the open scope. A label takes the next number. -/
theorem Walks.declares {inner : Scope} {count : Nat} (hRound : sym.round = d.round)
    (hLabels : Numbers d { d with labels := count } (labelsIn [.declares sym.kind sym.ty (some sym)]))
    (h : d.inner.declare? sym = some inner) :
    Walks d { d with inner, labels := count } [.declares sym.kind sym.ty (some sym)] [] where
  outer := rfl
  round := rfl
  found := ⟨[], by simp⟩
  inner := by
    unfold Scope.declare? at h
    split at h
    · cases h
    · cases h
      exact ⟨[sym], by simp [declaredIn, Note.declared?]⟩
  made := by
    intro kind ty x hx
    simp only [mem_singleton, Note.declares.injEq, Option.some.injEq] at hx
    obtain ⟨rfl, rfl, rfl⟩ := hx
    exact ⟨rfl, rfl, hRound⟩
  labels := ⟨hLabels.counted, hLabels.numbered, hLabels.distinct⟩
  bound := by
    intro _ kind ty entry hMem
    simp only [mem_singleton, Note.declares.injEq] at hMem
    simp [hMem.2.2]
  known := by simp

/-- A name that is taken is reported, and its declaration notes nothing. -/
theorem Walks.refused {problem : Diagnostic} {kind : SymbolKind} {ty : Ty} {count : Nat}
    (hError : problem.isError = true) (hCount : d.labels ≤ count) :
    Walks d { d with diagnostics := d.diagnostics ++ [problem], labels := count }
      [.declares kind ty none] [] where
  outer := rfl
  round := rfl
  found := ⟨[problem], rfl, by simpa using hError⟩
  inner := ⟨[], by simp⟩
  made := by simp
  labels := .none (labelsIn_eq_nil (by simp)) hCount
  bound := by simp
  known := by simp

/-- The numbers of variables and functions play no part in a walk. -/
theorem Walks.recount {globals functions slots : Nat}
    (h : Walks { d with globals, functions, slots } d' m s) : Walks d d' m s :=
  ⟨h.outer, h.round, h.found, h.inner, h.made, ⟨h.labels.counted, h.labels.numbered, h.labels.distinct⟩,
    h.bound, h.known⟩

end Declaring

/-- Expressions declare nothing, and they do not jump. -/
theorem Site.uses_of_mem_notes {ss : List Site} :
    ∀ n ∈ ss.filterMap note?, ∃ want entry, n = .uses want entry ∧ want ≠ .label := by
  intro n hn
  obtain ⟨s, _, hs⟩ := List.mem_filterMap.mp hn
  cases s with
  | gap => cases hs
  | ident | callee =>
    cases hs
    exact ⟨_, _, rfl, by simp⟩

namespace Expr

theorem uses_of_mem_notes (x : Expr) : ∀ n ∈ x.notes, ∃ want entry, n = .uses want entry ∧
    want ≠ .label :=
  x.notes_eq ▸ Site.uses_of_mem_notes

theorem uses_of_mem_notesAll : ∀ n ∈ notesAll es, ∃ want entry, n = .uses want entry ∧
    want ≠ .label :=
  notesAll_eq es ▸ Site.uses_of_mem_notes

theorem not_declares_mem_notes {kind : SymbolKind} {ty : Ty} (x : Expr) :
    .declares kind ty entry ∉ x.notes := by
  intro h
  obtain ⟨_, _, hUse, _⟩ := uses_of_mem_notes x _ h
  cases hUse

theorem not_declares_mem_notesAll {kind : SymbolKind} {ty : Ty} (es : List Expr) :
    .declares kind ty entry ∉ notesAll es := by
  intro h
  obtain ⟨e, _, h⟩ := mem_notesAll.mp h
  exact e.not_declares_mem_notes h

theorem labelsIn_notes (x : Expr) : labelsIn x.notes = [] := by
  refine List.filterMap_eq_nil_iff.mpr fun n hn => ?_
  obtain ⟨_, _, rfl, _⟩ := uses_of_mem_notes _ _ hn
  rfl

theorem labelsIn_notesAll (es : List Expr) : labelsIn (notesAll es) = [] := by
  refine List.filterMap_eq_nil_iff.mpr fun n hn => ?_
  obtain ⟨_, _, rfl, _⟩ := uses_of_mem_notesAll _ hn
  rfl

end Expr

namespace Stmt

theorem labelsIn_ifThen (p : Pos) (c : Expr) (ts : Option Scope) (t : Stmt) (es : Option Scope)
    (e : Stmt) :
    labelsIn (ifThen p c ts t es e).notes = labelsIn t.notes ++ labelsIn e.notes := by
  rw [notes, labelsIn_append, labelsIn_append, c.labelsIn_notes, nil_append]

theorem labelsIn_while (p : Pos) (c : Expr) (bs : Option Scope) (b : Stmt) :
    labelsIn (Stmt.while p c bs b).notes = labelsIn b.notes := by
  rw [notes, labelsIn_append, c.labelsIn_notes, nil_append]

theorem labelsIn_doWhile (p : Pos) (bs : Option Scope) (b : Stmt) (c : Expr) :
    labelsIn (doWhile p bs b c).notes = labelsIn b.notes := by
  rw [notes, labelsIn_append, c.labelsIn_notes, append_nil]

theorem labelsIn_for (p : Pos) (init : List Expr) (c : Expr) (step : List Expr) (bs : Option Scope)
    (b : Stmt) : labelsIn (Stmt.for p init c step bs b).notes = labelsIn b.notes := by
  simp only [notes, labelsIn_append, c.labelsIn_notes, Expr.labelsIn_notesAll, nil_append]

end Stmt

def KnownIn (chain : List Scope) (notes : List Note) : Prop :=
  ∀ D : Symbol → Prop, (∀ sc ∈ chain, sc.All D) → ∀ entry, Note.uses .local entry ∈ notes →
    ∃ s, entry = some s ∧ s.kind.serves .local = true ∧ D s

theorem Ident.bind_assures (v : Ident) :
    Assures (v.bindProblems chain) (KnownIn chain [.uses .local (v.bind chain).entry]) := by
  unfold Ident.bindProblems Ident.bind
  split
  · next s hLookup =>
    refine .nothing fun D hChain entry hEntry => ?_
    cases List.mem_singleton.mp hEntry
    obtain ⟨hServes, sc, hsc, hMem⟩ := Scope.lookupKind?_mem hLookup
    exact ⟨s, rfl, hServes, hChain sc hsc s hMem⟩
  · exact ⟨by simp [Diagnostic.isError], by simp⟩

/-- The variables at sites about which there is no complaint are bound to symbols of the open scopes. -/
theorem Site.bind_assures (ss : List Site) :
    Assures (ss.flatMap (·.bindProblems chain))
      (KnownIn chain ((ss.map (·.bind chain)).filterMap note?)) := by
  induction ss with
  | nil => exact .nothing fun _ _ _ hEntry => absurd hEntry not_mem_nil
  | cons s ss ih =>
    cases s with
    | gap p => exact ⟨List.forall_mem_cons.mpr ⟨rfl, ih.errors⟩, by simp [bindProblems]⟩
    | callee p name c =>
      exact ih.imp fun hKnown D hChain entry hEntry => hKnown D hChain entry
        (by simpa [bind, note?] using hEntry)
    | ident v =>
      refine (v.bind_assures.append ih).imp fun hBoth D hChain entry hEntry => ?_
      rcases List.mem_cons.mp hEntry with hHere | hEntry
      · exact hBoth.1 D hChain entry (List.mem_singleton.mpr hHere)
      · exact hBoth.2 D hChain entry hEntry

namespace Expr

theorem bindAll_assures (es : List Expr) :
    Assures (bindAllProblems chain es) (KnownIn chain (notesAll (bindAll chain es))) := by
  rw [notesAll_eq, (charts_all chain es).bound, (charts_all chain es).unbound]
  exact Site.bind_assures _

theorem bind_assures (x : Expr) : Assures (x.bindProblems chain) (KnownIn chain (x.bind chain).notes) := by
  rw [notes_eq, (x.sites_charts chain).bound, (x.sites_charts chain).unbound]
  exact Site.bind_assures _

end Expr

theorem Declaring.Walks.uses {d : Declaring} {notes : List Note} {ds : List Diagnostic}
    (hUses : ∀ kind ty entry, .declares kind ty entry ∉ notes)
      (hFound : Assures ds (KnownIn d.chain notes)) :
    d.Walks { d with diagnostics := d.diagnostics ++ ds } notes [] where
  outer := rfl
  round := rfl
  found := ⟨ds, rfl, hFound.errors⟩
  inner := ⟨[], by simp⟩
  made := fun _ _ _ hs => absurd hs (hUses _ _ _)
  labels := .none (labelsIn_eq_nil fun _ _ => hUses _ _ _) (Nat.le_refl _)
  bound := fun _ _ _ _ hMem => absurd hMem (hUses _ _ _)
  known := by
    intro hNone D hChain _
    exact ⟨hFound.holds (List.append_eq_nil_iff.mp hNone).2 D hChain, by simp⟩

/-- A use that the walk leaves to a later analysis. -/
theorem Declaring.Walks.leaves {d : Declaring} {want : SymbolKind} (hWant : want ≠ .local) :
    d.Walks d [.uses want entry] [] := by
  have h := @Declaring.Walks.uses d [.uses want entry] [] (by simp) (.nothing (by simp [KnownIn, hWant.symm]))
  rw [append_nil] at h
  exact h

def paramNotes (ps : List Param) : List Note := ps.map fun p => .declares .local p.ty p.entry

namespace Declares

open Declaring (Walks)

variable {d d' : Declaring}

theorem report_walks {ds : List Diagnostic} {u : Unit} (hErrors : ∀ x ∈ ds, x.isError = true)
    (h : report ds d = (u, d')) : d.Walks d' [] [] := by
  cases h
  exact Walks.report ds hErrors

theorem expr_walks (h : expr x d = (x', d')) : d.Walks d' x'.notes [] := by
  cases h
  exact Walks.uses (fun _ _ _ => Expr.not_declares_mem_notes _) x.bind_assures

theorem exprs_walks {es' : List Expr} (h : exprs es d = (es', d')) : d.Walks d' (Expr.notesAll es') [] := by
  cases h
  exact Walks.uses (fun _ _ _ => Expr.not_declares_mem_notesAll _) (Expr.bindAll_assures es)

theorem declare_cases (h : declare pos sym d = (entry, d')) :
    (∃ inner, d.inner.declare? { sym with round := d.round } = some inner ∧
      entry = some { sym with round := d.round } ∧ d' = { d with inner }) ∨
    (entry = none ∧ d' = { d with diagnostics := d.diagnostics ++
      [{ pos, kind := .duplicateName, message := sym.name }] }) := by
  simp only [declare, state_bind_eq, state_get_eq] at h
  obtain ⟨_, _, ⟨rfl, rfl⟩, h⟩ := h
  cases hDeclare : d.inner.declare? { sym with round := d.round } with
  | some inner =>
    simp only [hDeclare] at h
    cases h
    exact Or.inl ⟨inner, rfl, rfl, rfl⟩
  | none =>
    simp only [hDeclare] at h
    cases h
    exact Or.inr ⟨rfl, rfl⟩

/-- What a declaration notes, for all kinds of symbols but labels. -/
theorem declare_walks (hKind : sym.kind ≠ .label) (h : declare pos sym d = (entry, d')) :
    d.Walks d' [.declares sym.kind sym.ty entry] [] := by
  obtain ⟨inner, hDeclare, rfl, rfl⟩ | ⟨rfl, rfl⟩ := declare_cases h
  · have hNone : labelsIn [.declares sym.kind sym.ty (some { sym with round := d.round })] = [] :=
      labelsIn_eq_nil (by simp [hKind.symm])
    exact @Walks.declares { sym with round := d.round } d inner d.labels rfl (.none hNone (Nat.le_refl _))
      hDeclare
  · exact Walks.refused rfl (Nat.le_refl _)

theorem declareLocal_walks {ty : Ty} (h : declareLocal pos name ty d = (entry, d')) :
    d.Walks d' [.declares .local ty entry] [] := by
  simp only [declareLocal, state_bind_eq, state_get_eq, state_set_eq] at h
  obtain ⟨_, _, ⟨rfl, rfl⟩, _, _, rfl, h⟩ := h
  exact Walks.recount (declare_walks (by simp) h)

theorem enter_eq {u : Unit} : enter d = (u, d') ↔ { d with inner := ⟨[]⟩, outer := d.chain } = d' := by
  change ((), _) = (u, d') ↔ _
  simp

theorem leave_eq {sc : Scope} : leave d = (sc, d') ↔
    d.inner = sc ∧ { d with inner := d.outer.headD ⟨[]⟩, outer := d.outer.tail } = d' := by
  change (_, _) = (sc, d') ↔ _
  rw [Prod.mk.injEq]

theorem label_walks (h : stmt (.label p name entry) d = (s', d')) : d.Walks d' s'.notes s'.scopes := by
  simp only [stmt, state_bind_eq, state_get_eq, state_set_eq, state_pure_eq] at h
  obtain ⟨_, _, ⟨rfl, rfl⟩, _, _, rfl, entry', _, hDeclare, rfl, rfl⟩ := h
  obtain ⟨inner, hFree, rfl, rfl⟩ | ⟨rfl, rfl⟩ := declare_cases hDeclare
  · exact @Walks.declares _ d inner (d.labels + 1) rfl
      ⟨Nat.le_succ _, by simp [labelsIn, Note.label?], by simp [labelsIn, Note.label?]⟩ hFree
  · exact Walks.refused rfl (Nat.le_succ _)

/-- The walk over a conditional statement, with or without an `else`. -/
theorem ifThen_cases {c : Expr} {t e : Stmt} {ts es : Option Scope}
    (h : stmt (.ifThen p c ts t es e) d = (s', d')) : ∃ c' d₁ ts' t' d₂,
      expr c d = (c', d₁) ∧ body t (stmt t) d₁ = ((ts', t'), d₂) ∧
      (e = .missing ∧ s' = .ifThen p c' ts' t' none .missing ∧ d' = d₂ ∨
        e.isMissing = false ∧ ∃ es' e', body e (stmt e) d₂ = ((es', e'), d') ∧
          s' = .ifThen p c' ts' t' es' e') := by
  simp only [stmt, state_bind_eq] at h
  obtain ⟨c', d₁, hc, ⟨ts', t'⟩, d₂, ht, h⟩ := h
  refine ⟨c', d₁, ts', t', d₂, hc, ht, ?_⟩
  obtain rfl | hPresent := e.missing_or_present
  · cases h
    exact .inl ⟨rfl, rfl, rfl⟩
  · simp only [hPresent, Bool.false_eq_true, if_false, state_bind_eq, state_pure_eq] at h
    obtain ⟨⟨es', e'⟩, _, he, rfl, rfl⟩ := h
    exact .inr ⟨hPresent, es', e', he, rfl⟩

/-- A relation between two states of a walk and what is noted from one to the other, which holds of the
smallest pieces of a walk and composes along it. -/
structure Composes (R : Declaring → Declaring → List Note → List Scope → Prop) : Prop where
  trans : ∀ {d d' d'' m n s t}, R d d' m s → R d' d'' n t → R d d'' (m ++ n) (s ++ t)
  bracket : ∀ {d d' m s}, R { d with inner := ⟨[]⟩, outer := d.chain } d' m s →
    R d { d' with inner := d'.outer.headD ⟨[]⟩, outer := d'.outer.tail } m (d'.inner :: s)
  report : ∀ d ds, (∀ x ∈ ds, x.isError = true) →
    R d { d with diagnostics := d.diagnostics ++ ds } [] []
  expr : ∀ {x d x' d'}, expr x d = (x', d') → R d d' x'.notes []
  exprs : ∀ {es d es' d'}, exprs es d = (es', d') → R d d' (Expr.notesAll es') []
  leaves : ∀ {d want entry}, want ≠ .local → R d d [.uses want entry] []
  declareLocal : ∀ {pos name ty d entry d'}, declareLocal pos name ty d = (entry, d') →
    R d d' [.declares .local ty entry] []
  label : ∀ {p name entry d s' d'}, stmt (.label p name entry) d = (s', d') →
    R d d' s'.notes s'.scopes

section

variable {R : Declaring → Declaring → List Note → List Scope → Prop}

theorem Composes.refl (hR : Composes R) (d : Declaring) : R d d [] [] := by
  have h := hR.report d [] (by simp)
  rw [append_nil] at h
  exact h

theorem optional_composes (hR : Composes R) (h : optional x d = (x', d')) :
    R d d' x'.notes [] := by
  cases x with
  | missing =>
    cases h
    exact hR.report d [] (by simp)
  | _ => exact hR.expr h

/-- The body of a control statement. A bare label is declared in the scope around. -/
theorem body_composes (hR : Composes R) {s : Stmt} {m : Declares Stmt} {scope : Option Scope}
    (hm : ∀ d s' d', m d = (s', d') → R d d' s'.notes s'.scopes)
    (h : body s m d = ((scope, s'), d')) : R d d' s'.notes (scope.toList ++ s'.scopes) := by
  unfold body at h
  split at h
  · cases h
    exact hR.report d _ (by simp [malformed, Diagnostic.isError])
  · simp only [state_bind_eq, state_pure_eq] at h
    obtain ⟨t, _, ht, hEq, rfl⟩ := h
    cases hEq
    exact hm _ _ _ ht
  · simp only [state_bind_eq, state_pure_eq] at h
    obtain ⟨t, _, ht, hEq, rfl⟩ := h
    cases hEq
    exact hm _ _ _ ht
  · simp only [state_bind_eq, state_pure_eq, enter_eq, leave_eq] at h
    obtain ⟨_, _, rfl, t, _, ht, sc, _, ⟨rfl, rfl⟩, hEq, rfl⟩ := h
    cases hEq
    exact hR.bracket (hm _ _ _ ht)

theorem stmts_composes (hR : Composes R)
    (ih : ∀ s ∈ ss, ∀ d s' d', stmt s d = (s', d') → R d d' s'.notes s'.scopes)
      (h : stmts ss d = (ss', d')) :
    R d d' (Stmt.notesAll ss') (Stmt.scopesAll ss') := by
  induction ss generalizing d ss' with
  | nil =>
    cases h
    exact hR.refl _
  | cons s ss ihList =>
    simp only [stmts, state_bind_eq, state_pure_eq] at h
    obtain ⟨s', _, hs, ss', _, hss, rfl, rfl⟩ := h
    exact hR.trans (ih s (by simp) _ _ _ hs) (ihList (fun t ht => ih t (by simp [ht])) hss)

/-- The walk over a statement. The notes stand in the order in which the walk meets their names. -/
theorem stmt_composes (hR : Composes R) (s : Stmt) (d : Declaring) (s' : Stmt) (d' : Declaring)
    (h : stmt s d = (s', d')) : R d d' s'.notes s'.scopes := by
  induction s generalizing d s' d' with
  | missing =>
    cases h
    exact hR.report d _ (by simp [malformed, Diagnostic.isError])
  | block p scope ss ih =>
    simp only [stmt, state_bind_eq, state_pure_eq, enter_eq, leave_eq] at h
    obtain ⟨_, _, rfl, ss', _, hss, sc, _, ⟨rfl, rfl⟩, rfl, rfl⟩ := h
    exact hR.bracket (stmts_composes hR ih hss)
  | expr p x =>
    simp only [stmt, state_bind_eq, state_pure_eq] at h
    obtain ⟨x', _, hx, rfl, rfl⟩ := h
    exact hR.expr hx
  | decl p name ty init entry =>
    simp only [stmt, state_bind_eq, state_pure_eq] at h
    obtain ⟨x', _, hx, entry', _, hEntry, rfl, rfl⟩ := h
    exact hR.trans (optional_composes hR hx) (hR.declareLocal hEntry)
  | ifThen p c ts t es e iht ihe =>
    obtain ⟨c', _, ts', t', _, hc, ht, hElse⟩ := ifThen_cases h
    have hFirst := hR.trans (hR.expr hc) (body_composes hR iht ht)
    obtain ⟨rfl, rfl, rfl⟩ | ⟨_, es', e', he, rfl⟩ := hElse
    · simpa [Stmt.notes, Stmt.scopes] using hFirst
    · simpa [Stmt.notes, Stmt.scopes] using hR.trans hFirst (body_composes hR ihe he)
  | whileLoop p c bs b ih =>
    simp only [stmt, state_bind_eq, state_pure_eq] at h
    obtain ⟨c', _, hc, ⟨bs', b'⟩, _, hb, rfl, rfl⟩ := h
    simpa [Stmt.notes, Stmt.scopes] using hR.trans (hR.expr hc) (body_composes hR ih hb)
  | doWhile p bs b c ih =>
    simp only [stmt, state_bind_eq, state_pure_eq] at h
    obtain ⟨⟨bs', b'⟩, _, hb, c', _, hc, rfl, rfl⟩ := h
    simpa [Stmt.notes, Stmt.scopes] using hR.trans (body_composes hR ih hb) (hR.expr hc)
  | forLoop p init c step bs b ih =>
    simp only [stmt, state_bind_eq, state_pure_eq] at h
    obtain ⟨init', _, hi, c', _, hc, step', _, hs, ⟨bs', b'⟩, _, hb, rfl, rfl⟩ := h
    have hHead := hR.trans (hR.trans (hR.exprs hi) (optional_composes hR hc)) (hR.exprs hs)
    simpa [Stmt.notes, Stmt.scopes] using hR.trans hHead (body_composes hR ih hb)
  | jump p l entry | goto p name entry =>
    cases h
    exact hR.leaves (by simp)
  | label p name entry => exact hR.label h
  | ret p v =>
    simp only [stmt, state_bind_eq, state_pure_eq] at h
    obtain ⟨x', _, hx, rfl, rfl⟩ := h
    exact optional_composes hR hx
  | empty p =>
    cases h
    exact hR.refl _

theorem params_composes (hR : Composes R) (h : ps.mapM param d = (ps', d')) :
    R d d' (paramNotes ps') [] := by
  induction ps generalizing d ps' with
  | nil =>
    cases h
    exact hR.refl _
  | cons p ps ih =>
    simp only [mapM_cons, param, state_bind_eq, state_pure_eq] at h
    obtain ⟨p', _, ⟨entry, _, hEntry, rfl, rfl⟩, ps', _, hps, rfl, rfl⟩ := h
    exact hR.trans (hR.declareLocal hEntry) (ih hps)

end

theorem walks_composes : Composes Walks where
  trans := Walks.trans
  bracket := Walks.bracket
  report _ := Walks.report
  expr := expr_walks
  exprs := exprs_walks
  leaves := Walks.leaves
  declareLocal := declareLocal_walks
  label := label_walks

theorem optional_walks {x x' : Expr} (h : optional x d = (x', d')) : d.Walks d' x'.notes [] :=
  optional_composes walks_composes h

theorem stmt_walks {s : Stmt} (h : stmt s d = (s', d')) : d.Walks d' s'.notes s'.scopes :=
  stmt_composes walks_composes s d s' d' h

theorem stmts_walks (h : stmts ss d = (ss', d')) :
    d.Walks d' (Stmt.notesAll ss') (Stmt.scopesAll ss') :=
  stmts_composes walks_composes (fun s _ => stmt_composes walks_composes s) h

theorem params_walks (h : ps.mapM param d = (ps', d')) :
    d.Walks d' (paramNotes ps') [] :=
  params_composes walks_composes h

/-- Parameters and statements are declared in a scope of their own. -/
theorem frame_steps {b b' : Block} (h : frame ps b d = ((ps', b'), d')) :
    ∃ d₀ d₁ ss' d₂, { d with inner := ⟨[]⟩, outer := d.chain } = d₀ ∧
      ps.mapM param { d₀ with slots := 0 } = (ps', d₁) ∧ stmts b.stmts d₁ = (ss', d₂) ∧
      b' = { b with scope := some d₂.inner, stmts := ss' } ∧
      d' = { d₂ with inner := d₂.outer.headD ⟨[]⟩, outer := d₂.outer.tail } := by
  cases h
  exact ⟨_, _, _, _, rfl, rfl, rfl, rfl, rfl⟩

/-- The walk over parameters and statements in a scope of their own. The scope around is left as it
was. -/
theorem frame_walks {ps ps' : List Param} {b b' : Block} (h : frame ps b d = ((ps', b'), d')) :
    d'.inner = d.inner ∧ paramTypes ps' = paramTypes ps ∧
      Stmt.localsAll b'.stmts = Stmt.localsAll b.stmts ∧ ∃ sc, b'.scope = some sc ∧
      d.Walks d' (paramNotes ps' ++ Stmt.notesAll b'.stmts) (sc :: Stmt.scopesAll b'.stmts) := by
  obtain ⟨_, d₁, ss', d₂, rfl, hps, hss, rfl, rfl⟩ := frame_steps h
  have hWalk := (params_walks hps).recount.trans (stmts_walks hss)
  have hTypes : paramTypes ps' = paramTypes ps := by
    rw [← paramTypes_forget .raw ps', ← paramTypes_forget .raw ps, ← params_raw ps, hps]
  have hRaw : Stmt.forgetAll .raw ss' = Stmt.forgetAll .raw b.stmts := by
    rw [← stmts_raw (fun s (_ : s ∈ b.stmts) => stmt_raw s), hss]
  exact ⟨by simp [hWalk.outer, Declaring.chain], hTypes, Stmt.localsAll_of_forget hRaw, _, rfl,
    hWalk.bracket⟩

end Declares
end Lsl
