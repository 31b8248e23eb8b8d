import Lsl.Proofs.GlobalPlaces
import Lsl.Proofs.ScopeRules

/-! Declaration follows the rules of scopes. Each piece of the walk is set against the rules for it: as
long as nothing has been found, the open scopes show exactly the variables in sight, and something is
found in the piece exactly when the rules are broken there. -/
namespace Lsl

open List

variable {sc : Scope} {ds : List Diagnostic} {sym : Symbol} {x x' : Expr} {scope : Option Scope}
  {env : List Symbol} {chain : List Scope}

variable {es : List Expr} {p pos : Pos} {name : String} {entry : Option Symbol} {s s' : Stmt}

/-- Open scopes show the given variables, the nearest first, whatever else is declared in them. -/
def Scope.Shows (chain : List Scope) (env : List Symbol) : Prop :=
  ∀ name, lookupKind? chain name .local = env.find? (·.name == name)

section expressions

theorem Ident.bindProblems_eq_nil (hEnv : Scope.Shows chain env) (v : Ident) :
    v.bindProblems chain = [] ↔ v.name ∈ env.map (·.name) := by
  unfold Ident.bindProblems
  rw [hEnv, mem_map]
  cases hFind : env.find? (·.name == v.name) with
  | none =>
    simp only [cons_ne_nil, false_iff, not_exists, not_and]
    intro sym hSym hName
    have hNone := List.find?_eq_none.mp hFind sym hSym
    simp [hName] at hNone
  | some sym =>
    simp only [true_iff]
    exact ⟨sym, mem_of_find?_eq_some hFind, by simpa using List.find?_some hFind⟩

theorem Ident.bind_bound (hEnv : Scope.Shows chain env) {v : Ident} (hNone : v.bindProblems chain = []) :
    ∃ sym, (v.bind chain).entry = some sym ∧
      env.find? (·.name == (v.bind chain).name) = some sym := by
  unfold Ident.bindProblems at hNone
  unfold Ident.bind
  split at hNone
  · next sym hLookup => exact ⟨sym, rfl, (hEnv _).symm.trans hLookup⟩
  · cases hNone

namespace Site

variable {ss : List Site}

/-- Nothing is found at sites exactly when none is a gap and they use variables in sight only. -/
theorem bindProblems_eq_nil (hEnv : Scope.Shows chain env) :
    ss.flatMap (·.bindProblems chain) = [] ↔
      ss.all isFilled = true ∧ ∀ v, .ident v ∈ ss → v.name ∈ env.map (·.name) := by
  induction ss with
  | nil => simp
  | cons s ss ih =>
    rw [flatMap_cons, append_eq_nil_iff, ih]
    cases s with
    | gap => simp [bindProblems, isFilled]
    | ident v =>
      simp only [bindProblems, Ident.bindProblems_eq_nil hEnv, all_cons, isFilled, Bool.true_and,
        mem_cons, Site.ident.injEq, forall_eq_or_imp]
      exact and_left_comm
    | callee => simp [bindProblems, isFilled]

/-- Where nothing is found, each variable is bound to the nearest one in sight. -/
theorem bind_bound (hEnv : Scope.Shows chain env) (hNone : ss.flatMap (·.bindProblems chain) = [])
    (v : Ident)
    (hv : .ident v ∈ ss.map (·.bind chain)) :
    ∃ sym, v.entry = some sym ∧ env.find? (·.name == v.name) = some sym := by
  obtain ⟨s, hs, hBind⟩ := List.mem_map.mp hv
  cases s with
  | gap | callee => cases hBind
  | ident w =>
    cases hBind
    exact Ident.bind_bound hEnv (List.flatMap_eq_nil_iff.mp hNone (.ident w) hs)

end Site

namespace Expr

theorem bindAllProblems_eq_nil (hEnv : Scope.Shows chain env) (es : List Expr) :
    bindAllProblems chain es = [] ↔ completeAll es = true ∧ ∀ e ∈ es, e.Sees (env.map (·.name)) := by
  rw [(charts_all chain es).unbound, Site.bindProblems_eq_nil hEnv, completeAll_eq_sites]
  simp only [Sees, ← ident_mem_sites, mem_sitesAll]
  grind

theorem bindProblems_eq_nil (hEnv : Scope.Shows chain env) (x : Expr) :
    x.bindProblems chain = [] ↔ x.complete = true ∧ x.Sees (env.map (·.name)) := by
  rw [(x.sites_charts chain).unbound, Site.bindProblems_eq_nil hEnv, complete_sites]
  simp only [Sees, ← ident_mem_sites]

theorem bindAll_bound (hEnv : Scope.Shows chain env) (hNone : bindAllProblems chain es = []) :
    ∀ e ∈ bindAll chain es, e.Bound env := by
  intro e he v hv
  refine Site.bind_bound hEnv ((charts_all chain es).unbound ▸ hNone) v ?_
  rw [← (charts_all chain es).bound]
  exact mem_sitesAll.mpr ⟨e, he, ident_mem_sites.mpr hv⟩

theorem bind_bound (hEnv : Scope.Shows chain env) (x : Expr) (hNone : x.bindProblems chain = []) :
    (x.bind chain).Bound env := by
  intro v hv
  refine Site.bind_bound hEnv ((x.sites_charts chain).unbound ▸ hNone) v ?_
  rw [← (x.sites_charts chain).bound]
  exact ident_mem_sites.mpr hv

end Expr
end expressions

/-- A piece of a script by what it does to the scope it stands in: what it declares there, which of that
are variables, the last one first, and what it asks of the variables in sight before it. Names stand for
the declarations in the rules and symbols in the notes. -/
structure Piece (α : Type) where
  declared : List α
  vars : List α
  fits : List α → Prop

namespace Piece

variable {α : Type}

def uses (fits : List α → Prop) : Piece α := ⟨[], [], fits⟩

def andThen (a b : Piece α) : Piece α where
  declared := a.declared ++ b.declared
  vars := b.vars ++ a.vars
  fits env := a.fits env ∧ b.fits (a.vars ++ env)

end Piece

def Scope.names (sc : Scope) : List String := sc.symbols.map (·.name)

theorem Scope.local?_eq_none : sc.local? name = none ↔ name ∉ sc.names := by
  simp only [local?, List.find?_eq_none, names, mem_map, not_exists, not_and, beq_iff_eq]

namespace Declaring

/-- What a piece of a walk has done if nothing is found by its end. -/
structure Records (d d' : Declaring) (rule : Piece String) (noted : Piece Symbol) : Prop where
  outer : d'.outer = d.outer
  round : d'.round = d.round
  inner : d'.inner.symbols = d.inner.symbols ++ noted.declared
  names : noted.declared.map (·.name) = rule.declared
  vars : noted.vars.map (·.name) = rule.vars
  shows : ∀ env, Scope.Shows d.chain env → Scope.Shows d'.chain (noted.vars ++ env) ∧ noted.fits env

/-- A piece of a walk follows the rule for it: nothing is found exactly when its names are all different
and free in the open scope and it fits the variables in sight. -/
structure Follows (d d' : Declaring) (rule : Piece String) (noted : Piece Symbol) : Prop where
  before : d'.diagnostics = [] → d.diagnostics = []
  found : d.diagnostics = [] → ∀ env, Scope.Shows d.chain env →
    (d'.diagnostics = [] ↔ (rule.declared.Nodup ∧ ∀ name ∈ rule.declared, name ∉ d.inner.names) ∧
      rule.fits (env.map (·.name)))
  records : d'.diagnostics = [] → Records d d' rule noted

variable {d d' d'' : Declaring} {rule rule' : Piece String} {noted noted' : Piece Symbol}

theorem Records.names_eq (h : Records d d' rule noted) : d'.inner.names = d.inner.names ++ rule.declared := by
  rw [Scope.names, h.inner, map_append, h.names]
  rfl

theorem Records.trans (h : Records d d' rule noted) (h' : Records d' d'' rule' noted') :
    Records d d'' (rule.andThen rule') (noted.andThen noted') where
  outer := h'.outer.trans h.outer
  round := h'.round.trans h.round
  inner := by rw [h'.inner, h.inner, append_assoc]; rfl
  names := by simp only [Piece.andThen, map_append, h.names, h'.names]
  vars := by simp only [Piece.andThen, map_append, h.vars, h'.vars]
  shows := by
    intro env hEnv
    obtain ⟨hFirst, hFits⟩ := h.shows env hEnv
    obtain ⟨hSecond, hFits'⟩ := h'.shows _ hFirst
    refine ⟨?_, hFits, hFits'⟩
    simpa only [Piece.andThen, append_assoc] using hSecond

/-- Two pieces after one another. The second meets the names that the first has taken, and sees its
variables. -/
theorem Follows.trans (h : Follows d d' rule noted) (h' : Follows d' d'' rule' noted') :
    Follows d d'' (rule.andThen rule') (noted.andThen noted') where
  before hNone := h.before (h'.before hNone)
  records hNone := (h.records (h'.before hNone)).trans (h'.records hNone)
  found := by
    intro hStart env hEnv
    have hFirst := h.found hStart env hEnv
    -- once the first piece is through, the second starts from what it has left
    have hSecond : d'.diagnostics = [] → (d''.diagnostics = [] ↔
        (rule'.declared.Nodup ∧ ∀ name ∈ rule'.declared, name ∉ d.inner.names ++ rule.declared) ∧
          rule'.fits (rule.vars ++ env.map (·.name))) := by
      intro hNone
      have hRecords := h.records hNone
      have hFound := h'.found hNone _ (hRecords.shows env hEnv).1
      rwa [hRecords.names_eq, map_append, hRecords.vars] at hFound
    simp only [Piece.andThen, nodup_append, mem_append, or_imp, forall_and, not_or] at hSecond ⊢
    constructor
    · intro hNone
      have hMiddle := h'.before hNone
      obtain ⟨⟨hDistinct, hFree⟩, hFits⟩ := hFirst.mp hMiddle
      obtain ⟨⟨hDistinct', hFree', hApart⟩, hFits'⟩ := (hSecond hMiddle).mp hNone
      refine ⟨⟨⟨hDistinct, hDistinct', ?_⟩, hFree, hFree'⟩, hFits, hFits'⟩
      rintro name hName _ hName' rfl
      exact hApart name hName' hName
    · rintro ⟨⟨⟨hDistinct, hDistinct', hApart⟩, hFree, hFree'⟩, hFits, hFits'⟩
      apply (hSecond (hFirst.mpr ⟨⟨hDistinct, hFree⟩, hFits⟩)).mpr
      exact ⟨⟨hDistinct', hFree', fun name hName' hName => hApart name hName name hName' rfl⟩, hFits'⟩

/-- The rule may be said in another way, and less may be said of the notes. -/
theorem Follows.congr (h : Follows d d' rule noted) (hDeclared : rule'.declared = rule.declared)
    (hVariables : rule'.vars = rule.vars) (hFits : ∀ env, rule'.fits env ↔ rule.fits env)
    (hNoted : noted'.declared = noted.declared) (hSymbols : noted'.vars = noted.vars)
    (hBound : ∀ env, noted.fits env → noted'.fits env) : Follows d d' rule' noted' where
  before := h.before
  found := by
    intro hStart env hEnv
    rw [hDeclared, hFits]
    exact h.found hStart env hEnv
  records := by
    intro hNone
    have hRecords := h.records hNone
    refine ⟨hRecords.outer, hRecords.round, hNoted ▸ hRecords.inner, ?_, ?_, fun env hEnv => ?_⟩
    · rw [hNoted, hDeclared, hRecords.names]
    · rw [hSymbols, hVariables, hRecords.vars]
    · rw [hSymbols]
      exact ⟨(hRecords.shows env hEnv).1, hBound env (hRecords.shows env hEnv).2⟩

/-- A piece that declares nothing and reports where its rule is broken. -/
theorem Follows.uses {asks : List String → Prop} {bound : List Symbol → Prop}
    (hFound : ∀ env, Scope.Shows d.chain env → (ds = [] ↔ asks (env.map (·.name))))
    (hBound : ds = [] → ∀ env, Scope.Shows d.chain env → bound env) :
    Follows d { d with diagnostics := d.diagnostics ++ ds } (.uses asks) (.uses bound) where
  before hNone := (List.append_eq_nil_iff.mp hNone).1
  found := by
    intro hStart env hEnv
    simpa [Piece.uses, hStart] using hFound env hEnv
  records := by
    intro hNone
    have hNothing := (List.append_eq_nil_iff.mp hNone).2
    exact ⟨rfl, rfl, by simp [Piece.uses], rfl, rfl, fun env hEnv => ⟨hEnv, hBound hNothing env hEnv⟩⟩

theorem Follows.still : Follows d d (.uses fun _ => True) (.uses fun _ => True) where
  before := id
  found := by
    intro hStart env _
    simp [Piece.uses, hStart]
  records _ := ⟨rfl, rfl, by simp [Piece.uses], rfl, rfl, fun env hEnv => ⟨hEnv, trivial⟩⟩

/-- The numbers of variables, functions and labels play no part in the rules. -/
theorem Follows.recount {globals functions slots labels : Nat}
    (h : Follows { d with globals, functions, slots, labels } d' rule noted) : Follows d d' rule noted where
  before := h.before
  found := h.found
  records hNone :=
    have hRecords := h.records hNone
    ⟨hRecords.outer, hRecords.round, hRecords.inner, hRecords.names, hRecords.vars, hRecords.shows⟩

/-- Scopes that are opened around a piece show what the scopes around them show. -/
theorem shows_entered :
    Scope.Shows ({ d with inner := ⟨[]⟩, outer := d.chain } : Declaring).chain env ↔
      Scope.Shows d.chain env := Iff.rfl

/-- A piece in a scope of its own, which holds what the piece declares and is closed after it. -/
theorem Follows.enclosed (h : Follows { d with inner := ⟨[]⟩, outer := d.chain } d' rule noted) :
    Follows d { d' with inner := d'.outer.headD ⟨[]⟩, outer := d'.outer.tail }
      (.uses fun env => rule.declared.Nodup ∧ rule.fits env)
      (.uses fun env => (d'.inner = ⟨noted.declared⟩ ∧ Symbol.Apart noted.declared) ∧
        noted.fits env) where
  before := h.before
  found := by
    intro hStart env hEnv
    have hFound := h.found hStart env (shows_entered.mpr hEnv)
    simpa [Piece.uses, Scope.names] using hFound
  records := by
    intro hNone
    have hRecords := h.records hNone
    have hOuter : d'.outer = d.inner :: d.outer := hRecords.outer
    refine ⟨by simp [hOuter], hRecords.round, by simp [hOuter, Piece.uses], rfl, rfl, fun env hEnv => ?_⟩
    have hFound := h.found (h.before hNone) env (shows_entered.mpr hEnv)
    refine ⟨?_, ⟨?_, ?_⟩, (hRecords.shows env (shows_entered.mpr hEnv)).2⟩
    · simpa [chain, hOuter, Piece.uses] using hEnv
    · rw [Scope.mk.injEq]
      exact hRecords.inner
    · rw [Symbol.Apart, hRecords.names]
      exact (hFound.mp hNone).1.1

end Declaring

/-- A symbol that takes a free name in the innermost scope is in sight if it is a variable, and hides
nothing otherwise. -/
theorem Scope.Shows.declare (hEnv : Shows (sc :: chain) env) (hFree : sc.local? sym.name = none) :
    Shows (⟨sc.symbols ++ [sym]⟩ :: chain) ((if sym.isVariable then [sym] else []) ++ env) := by
  intro name
  have hBefore := hEnv name
  have hServes : sym.kind.serves .local = sym.isVariable := rfl
  simp only [lookupKind?, List.findSome?_cons, local?] at hBefore hFree ⊢
  rw [List.find?_append]
  by_cases hName : sym.name = name
  · subst hName
    simp only [hFree, Option.filter_none] at hBefore
    cases hVariable : sym.isVariable with
    | true => simp [hFree, Option.filter_some, hServes, hVariable]
    | false => simp [hFree, Option.filter_some, hServes, hVariable, hBefore]
  · have hOther : (sym.name == name) = false := by simpa using hName
    have hNone : List.find? (fun x => x.name == name) [sym] = none := by simp [hOther]
    rw [hNone, Option.or_none, hBefore, List.find?_append]
    cases hVariable : sym.isVariable with
    | true => simp [hOther]
    | false => simp

namespace Declares

open Declaring (Follows)

variable {d d' : Declaring}

theorem expr_follows (h : expr x d = (x', d')) :
    Follows d d' (.uses fun env => x.complete = true ∧ x.Sees env) (.uses fun env => x'.Bound env) := by
  cases h
  exact Follows.uses (fun env hEnv => Expr.bindProblems_eq_nil hEnv x)
    fun hNone env hEnv => Expr.bind_bound hEnv x hNone

theorem optional_follows (h : optional x d = (x', d')) :
    Follows d d' (.uses fun env => x.absentOrComplete = true ∧ x.Sees env)
      (.uses fun env => x'.Bound env) := by
  cases x with
  | missing =>
    cases h
    apply Follows.uses
    · intro env _
      simp [Expr.bindOptionalProblems, Expr.absentOrComplete, Expr.isMissing, Expr.Sees, Expr.parts]
    · intro _ env _
      simp [Expr.bind, Expr.Bound, Expr.parts]
  | _ => exact expr_follows h

theorem exprs_follows {es' : List Expr} (h : exprs es d = (es', d')) :
    Follows d d' (.uses fun env => Expr.completeAll es = true ∧ ∀ x ∈ es, x.Sees env)
      (.uses fun env => ∀ x ∈ es', x.Bound env) := by
  cases h
  exact Follows.uses (fun env hEnv => Expr.bindAllProblems_eq_nil hEnv es)
    fun hNone env hEnv => Expr.bindAll_bound hEnv hNone

/-- A symbol is refused only if its name is taken. -/
theorem declare_refused (h : declare pos sym d = (none, d')) : sym.name ∈ d.inner.names := by
  simp only [declare, state_bind_eq, state_get_eq] at h
  obtain ⟨_, _, ⟨rfl, rfl⟩, h⟩ := h
  cases hScope : d.inner.declare? { sym with round := d.round } with
  | some inner =>
    simp only [hScope] at h
    cases h
  | none =>
    apply Decidable.byContradiction
    intro hFree
    simp [Scope.declare?, Scope.local?_eq_none.mpr hFree] at hScope

theorem declare_follows (h : declare pos sym d = (entry, d')) :
    Follows d d' ⟨[sym.name], if sym.isVariable then [sym.name] else [], fun _ => True⟩
      ⟨entry.toList, if sym.isVariable then entry.toList else [],
        fun _ => entry = some { sym with round := d.round }⟩ := by
  obtain ⟨inner, hScope, rfl, rfl⟩ | ⟨rfl, rfl⟩ := declare_cases h
  · unfold Scope.declare? at hScope
    split at hScope
    · cases hScope
    · next hTaken =>
      cases hScope
      have hFree := Option.not_isSome_iff_eq_none.mp hTaken
      refine ⟨id, fun hStart env _ => ?_, fun _ =>
        ⟨rfl, rfl, rfl, rfl, ?_, fun env hEnv => ⟨?_, rfl⟩⟩⟩
      · simp [hStart, ← Scope.local?_eq_none, hFree]
      · cases sym.isVariable <;> rfl
      · exact hEnv.declare hFree
  · have hTaken := declare_refused h
    refine ⟨by simp, fun hStart env _ => ?_, by simp⟩
    simp [hTaken]

end Declares

namespace Stmt

def rule (s : Stmt) : Piece String where
  declared := s.declares
  vars := s.varNames
  fits env := s.complete = true ∧ s.WellScoped env

def noted (round : Nat) (s : Stmt) : Piece Symbol where
  declared := s.standing
  vars := s.varSymbol?.toList
  fits := s.Bound round

def bodyRule (s : Stmt) : Piece String where
  declared := s.labelName?.toList
  vars := []
  fits env := s.complete = true ∧ s.declares.Nodup ∧ s.WellScoped env

def bodyNoted (round : Nat) (scope : Option Scope) (s : Stmt) : Piece Symbol where
  declared := s.label?.toList
  vars := []
  fits env := (scope = s.ownScope ∧ Symbol.Apart s.standing) ∧ s.Bound round env

theorem varNames_reverse (s : Stmt) : s.varNames.reverse = s.varNames := by
  cases s <;> rfl

/-- Whether a statement has no scope of its own as the body of a control statement. -/
def sharesScope : Stmt → Bool
  | missing | block .. | label .. => true
  | _ => false

theorem sharesScope_forget (k : Stage) (s : Stmt) : (s.forget k).sharesScope = s.sharesScope := by
  cases s <;> rfl

/-- A body with a scope of its own is no label, and the scope holds what the body declares. -/
theorem ownScope_eq (h : s.sharesScope = false) : s.ownScope = some ⟨s.standing⟩ ∧ s.label? = none := by
  cases s with
  | missing | block | label => cases h
  | _ => exact ⟨rfl, rfl⟩

end Stmt

namespace Declares

open Declaring (Follows)

variable {d d' : Declaring}

theorem stmt_sharesScope (h : stmt s d = (s', d')) : s'.sharesScope = s.sharesScope := by
  have hRaw := congrArg Stmt.sharesScope (stmt_raw s d)
  rwa [h, Stmt.sharesScope_forget, Stmt.sharesScope_forget] at hRaw

theorem report_follows {u : Unit} {rule : Piece String} {noted : Piece Symbol} (hSome : ds ≠ [])
    (hRule : ∀ env, ¬ rule.fits env) (h : report ds d = (u, d')) :
    Follows d d' rule noted := by
  cases h
  refine ⟨fun hNone => absurd (List.append_eq_nil_iff.mp hNone).2 hSome, fun _ env _ => ?_,
    fun hNone => absurd (List.append_eq_nil_iff.mp hNone).2 hSome⟩
  simp [hSome, hRule]

theorem stmts_follows {ss ss' : List Stmt}
    (ih : ∀ s ∈ ss, ∀ d s' d', stmt s d = (s', d') → Follows d d' s.rule (s'.noted d.round))
    (h : stmts ss d = (ss', d')) :
    Follows d d' ⟨Stmt.declaresAll ss, (ss.flatMap Stmt.varNames).reverse,
        fun env => Stmt.completeAll ss = true ∧ Stmt.WellScopedAll env ss⟩
      ⟨Stmt.standingAll ss', (ss'.filterMap Stmt.varSymbol?).reverse,
        fun env => Stmt.BoundAll d.round env ss'⟩ := by
  induction ss generalizing d ss' with
  | nil =>
    cases h
    refine Follows.still.congr rfl rfl ?_ rfl rfl fun env _ => trivial
    intro env
    simp [Stmt.completeAll, Stmt.WellScopedAll, Piece.uses]
  | cons s ss ihTail =>
    simp only [stmts, state_bind_eq, state_pure_eq] at h
    obtain ⟨s', d₁, hs, ss', _, hss, rfl, rfl⟩ := h
    have hHead := ih s (by simp) _ _ _ hs
    have hTail := ihTail (fun t ht => ih t (by simp [ht])) hss
    rw [(stmt_walks hs).round] at hTail
    refine (hHead.trans hTail).congr rfl ?_ ?_ rfl ?_ fun env hBound => hBound
    · simp [Piece.andThen, Stmt.rule, Stmt.varNames_reverse]
    · intro env
      simp only [Stmt.completeAll, Stmt.WellScopedAll, Piece.andThen, Stmt.rule, Bool.and_eq_true]
      exact and_and_and_comm
    · cases hVar : s'.varSymbol? <;> simp [Piece.andThen, Stmt.noted, hVar]

theorem block_follows {ss : List Stmt}
    (ih : ∀ s ∈ ss, ∀ d s' d', stmt s d = (s', d') → Follows d d' s.rule (s'.noted d.round))
    (h : stmt (.block p scope ss) d = (s', d')) :
    Follows d d' (Stmt.block p scope ss).rule (s'.noted d.round) := by
  simp only [stmt, state_bind_eq, state_pure_eq, enter_eq, leave_eq] at h
  obtain ⟨_, _, rfl, ss', _, hss, sc, _, ⟨rfl, rfl⟩, rfl, rfl⟩ := h
  refine (stmts_follows ih hss).enclosed.congr rfl rfl ?_ rfl rfl ?_
  · intro env
    simp only [Stmt.rule, Piece.uses, Stmt.complete, Stmt.WellScoped]
    exact and_left_comm
  · rintro env ⟨⟨hScope, hApart⟩, hBound⟩
    exact ⟨⟨congrArg some hScope, hApart⟩, hBound⟩

theorem label_follows (h : stmt (.label p name entry) d = (s', d')) :
    Follows d d' (Stmt.label p name entry).rule (s'.noted d.round) := by
  simp only [stmt, state_bind_eq, state_get_eq, state_set_eq, state_pure_eq] at h
  obtain ⟨_, _, ⟨rfl, rfl⟩, _, _, rfl, entry', _, hDeclare, rfl, rfl⟩ := h
  refine (declare_follows hDeclare).recount.congr rfl rfl ?_ ?_ rfl ?_
  · intro env
    simp [Stmt.rule, Stmt.complete, Stmt.WellScoped]
  · simp [Stmt.noted, Stmt.standing, Stmt.varSymbol?, Stmt.own, Stmt.label?, Stmt.bodyLabels]
  · exact fun env hEntry => ⟨_, hEntry⟩

/-- The body of a control statement. A bare label is declared in the scope around. -/
theorem body_follows (ih : ∀ d s' d', stmt s d = (s', d') → Follows d d' s.rule (s'.noted d.round))
    (h : body s (stmt s) d = ((scope, s'), d')) : Follows d d' s.bodyRule (s'.bodyNoted d.round scope) := by
  cases s with
  | missing =>
    simp only [body, state_bind_eq, state_pure_eq] at h
    obtain ⟨_, _, hReport, _, rfl⟩ := h
    exact report_follows (by simp) (by simp [Stmt.bodyRule, Stmt.complete]) hReport
  | block p sc ss =>
    simp only [body, state_bind_eq, state_pure_eq] at h
    obtain ⟨t, _, ht, hEq, rfl⟩ := h
    cases hEq
    have hFollows := ih _ _ _ ht
    simp only [stmt, state_bind_eq, state_pure_eq] at ht
    obtain ⟨_, _, _, ss', _, _, _, _, _, rfl, rfl⟩ := ht
    refine hFollows.congr rfl rfl ?_ rfl rfl ?_
    · intro env
      simp [Stmt.bodyRule, Stmt.rule, Stmt.declares]
    · exact fun env hBound => ⟨⟨rfl, nodup_nil⟩, hBound⟩
  | label p name entry =>
    simp only [body, state_bind_eq, state_pure_eq] at h
    obtain ⟨t, _, ht, hEq, rfl⟩ := h
    cases hEq
    have hFollows := ih _ _ _ ht
    simp only [stmt, state_bind_eq, state_pure_eq] at ht
    obtain ⟨_, _, _, _, _, _, entry', _, _, rfl, rfl⟩ := ht
    refine hFollows.congr rfl rfl ?_ ?_ rfl ?_
    · intro env
      simp [Stmt.bodyRule, Stmt.rule, Stmt.declares]
    · simp [Stmt.bodyNoted, Stmt.noted, Stmt.standing, Stmt.varSymbol?, Stmt.own, Stmt.bodyLabels]
    · rintro env ⟨index, rfl⟩
      exact ⟨⟨rfl, nodup_singleton _⟩, index, rfl⟩
  | _ =>
    simp only [body, state_bind_eq, state_pure_eq, enter_eq, leave_eq] at h
    obtain ⟨_, _, rfl, t, _, ht, sc, _, ⟨rfl, rfl⟩, hEq, rfl⟩ := h
    cases hEq
    obtain ⟨hOwn, hLabel⟩ := Stmt.ownScope_eq (stmt_sharesScope ht)
    refine (ih _ _ _ ht).enclosed.congr rfl rfl ?_ ?_ rfl ?_
    · intro env
      simp only [Stmt.bodyRule, Stmt.rule, Piece.uses]
      exact and_left_comm
    · simp [Stmt.bodyNoted, hLabel, Piece.uses]
    · rintro env ⟨⟨hScope, hApart⟩, hBound⟩
      refine ⟨⟨?_, hApart⟩, hBound⟩
      rw [hOwn, hScope]
      rfl

theorem declareLocal_follows {ty : Ty} (h : declareLocal pos name ty d = (entry, d')) :
    Follows d d' ⟨[name], [name], fun _ => True⟩
      ⟨entry.toList, entry.toList, fun _ => Denotes d.round name .local ty entry⟩ := by
  simp only [declareLocal, state_bind_eq, state_get_eq, state_set_eq] at h
  obtain ⟨_, _, ⟨rfl, rfl⟩, _, _, rfl, hDeclare⟩ := h
  exact (declare_follows hDeclare).recount.congr rfl rfl (fun _ => Iff.rfl) rfl rfl
    fun env hEntry => ⟨_, hEntry⟩

/-- The walk over a statement follows the rules. -/
theorem stmt_follows (s : Stmt) (d : Declaring) (s' : Stmt) (d' : Declaring) (h : stmt s d = (s', d')) :
    Follows d d' s.rule (s'.noted d.round) := by
  induction s generalizing d s' d' with
  | missing =>
    simp only [stmt, state_bind_eq, state_pure_eq] at h
    obtain ⟨_, _, hReport, rfl, rfl⟩ := h
    exact report_follows (by simp) (by simp [Stmt.rule, Stmt.complete]) hReport
  | block p scope ss ih => exact block_follows ih h
  | expr p x =>
    simp only [stmt, state_bind_eq, state_pure_eq] at h
    obtain ⟨x', _, hx, rfl, rfl⟩ := h
    exact expr_follows hx
  | decl p name ty init entry =>
    simp only [stmt, state_bind_eq, state_pure_eq] at h
    obtain ⟨x', d₁, hx, entry', _, hEntry, rfl, rfl⟩ := h
    have hDeclare := declareLocal_follows hEntry
    rw [(optional_walks hx).round] at hDeclare
    refine ((optional_follows hx).trans hDeclare).congr rfl rfl ?_ ?_ ?_ fun env hBound => hBound
    · intro env
      simp [Stmt.rule, Stmt.complete, Stmt.WellScoped, Piece.andThen, Piece.uses]
    · simp [Stmt.noted, Stmt.standing, Stmt.varSymbol?, Stmt.own, Stmt.label?, Stmt.bodyLabels,
        Piece.andThen, Piece.uses]
    · simp [Stmt.noted, Stmt.varSymbol?, Piece.andThen, Piece.uses]
  | ifThen p c ts t es e iht ihe =>
    obtain ⟨c', _, ts', t', _, hc, ht, hRest⟩ := ifThen_cases h
    have hThen := body_follows iht ht
    rw [(expr_walks hc).round] at hThen
    have hFirst := (expr_follows hc).trans hThen
    obtain ⟨rfl, rfl, rfl⟩ | ⟨hElse, es', e', he, rfl⟩ := hRest
    · refine hFirst.congr ?_ rfl ?_ ?_ rfl ?_
      · simp [Stmt.rule, Stmt.declares, Stmt.labelName?, Stmt.bodyRule, Piece.andThen, Piece.uses]
      · intro env
        simp only [Stmt.rule, Stmt.complete, Stmt.WellScoped, Stmt.isMissing, Piece.andThen, Piece.uses,
          Stmt.bodyRule, Stmt.declares, Bool.and_eq_true, Bool.or_eq_true, nil_append,
          nodup_nil]
        tauto
      · simp [Stmt.noted, Stmt.standing, Stmt.varSymbol?, Stmt.own_ifThen, Stmt.label?, Stmt.bodyNoted,
          Piece.andThen, Piece.uses]
      · exact fun env hBound => ⟨hBound.1, hBound.2, ⟨rfl, nodup_nil⟩, trivial⟩
    · have hSecond := body_follows ihe he
      have hWalk := body_composes walks_composes (stmt_composes walks_composes t) ht
      rw [hWalk.round, (expr_walks hc).round] at hSecond
      refine (hFirst.trans hSecond).congr rfl rfl ?_ ?_ rfl ?_
      · intro env
        simp only [Stmt.rule, Stmt.complete, Stmt.WellScoped, hElse, Piece.andThen, Piece.uses,
          Stmt.bodyRule, Bool.and_eq_true, Bool.false_or, nil_append]
        tauto
      · simp [Stmt.noted, Stmt.standing, Stmt.varSymbol?, Stmt.own_ifThen, Stmt.bodyNoted, Piece.andThen,
          Piece.uses]
      · exact fun env hBound => ⟨hBound.1.1, hBound.1.2, hBound.2⟩
  | whileLoop p c bs b ih =>
    simp only [stmt, state_bind_eq, state_pure_eq] at h
    obtain ⟨c', _, hc, ⟨bs', b'⟩, _, hb, rfl, rfl⟩ := h
    have hBody := body_follows ih hb
    rw [(expr_walks hc).round] at hBody
    refine ((expr_follows hc).trans hBody).congr rfl rfl ?_ rfl rfl fun env hBound => hBound
    intro env
    simp only [Stmt.rule, Stmt.complete, Stmt.WellScoped, Piece.andThen, Piece.uses, Stmt.bodyRule,
      Bool.and_eq_true, nil_append]
    tauto
  | doWhile p bs b c ih =>
    simp only [stmt, state_bind_eq, state_pure_eq] at h
    obtain ⟨⟨bs', b'⟩, _, hb, c', _, hc, rfl, rfl⟩ := h
    refine ((body_follows ih hb).trans (expr_follows hc)).congr ?_ rfl ?_ ?_ rfl ?_
    · simp [Stmt.rule, Stmt.declares, Stmt.bodyRule, Piece.andThen, Piece.uses]
    · intro env
      simp only [Stmt.rule, Stmt.complete, Stmt.WellScoped, Piece.andThen, Piece.uses, Stmt.bodyRule,
        Bool.and_eq_true, nil_append]
      tauto
    · simp [Stmt.noted, Stmt.standing, Stmt.varSymbol?, Stmt.own_doWhile, Stmt.bodyNoted, Piece.andThen,
        Piece.uses]
    · exact fun env hBound => ⟨hBound.2, hBound.1⟩
  | forLoop p init c step bs b ih =>
    simp only [stmt, state_bind_eq, state_pure_eq] at h
    obtain ⟨init', _, hi, c', _, hc, step', _, hs, ⟨bs', b'⟩, _, hb, rfl, rfl⟩ := h
    have hBody := body_follows ih hb
    rw [(exprs_walks hs).round, (optional_walks hc).round, (exprs_walks hi).round] at hBody
    refine ((((exprs_follows hi).trans (optional_follows hc)).trans (exprs_follows hs)).trans hBody).congr
      rfl rfl ?_ rfl rfl ?_
    · intro env
      simp only [Stmt.rule, Stmt.complete, Stmt.WellScoped, Piece.andThen, Piece.uses, Stmt.bodyRule,
        Bool.and_eq_true, nil_append]
      tauto
    · rintro env ⟨⟨⟨hInit, hCond⟩, hStep⟩, hBody⟩
      exact ⟨⟨hInit, hCond, hStep⟩, hBody⟩
  | label p name entry => exact label_follows h
  | ret p v =>
    simp only [stmt, state_bind_eq, state_pure_eq] at h
    obtain ⟨x', _, hx, rfl, rfl⟩ := h
    exact optional_follows hx
  | jump | goto | empty =>
    cases h
    refine Follows.still.congr rfl rfl ?_ rfl rfl fun env _ => trivial
    intro env
    simp [Stmt.rule, Stmt.complete, Stmt.WellScoped, Piece.uses]

end Declares
end Lsl
