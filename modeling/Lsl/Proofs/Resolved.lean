import Lsl.Proofs.Declared

/-! What the resolution of calls, jumps and state changes establishes. It passes over the notes of a
tree one by one: declarations and variables stay as they are, and every other use that is not
complained about gets a symbol from one of the scopes that were left in the tree. -/
namespace Lsl

open List

variable {want : SymbolKind} {scope : Option Scope} {D : Symbol → Prop} {chain around : List Scope}

variable {entry : Option Symbol}

/-- How resolution changes one note, where `D` is what is known of all symbols in scope. -/
inductive Note.Links (D : Symbol → Prop) : Note → Note → Prop where
  | declares (kind : SymbolKind) (ty : Ty) (entry : Option Symbol) :
      Links D (.declares kind ty entry) (.declares kind ty entry)
  | mentions (entry : Option Symbol) : Links D (.uses .local entry) (.uses .local entry)
  | bound {want : SymbolKind} (entry : Option Symbol) {s : Symbol} (hWant : want ≠ .local)
      (hServes : s.kind.serves want = true) (hKnown : D s) :
      Links D (.uses want entry) (.uses want (some s))

abbrev Links (D : Symbol → Prop) : List Note → List Note → Prop := Forall₂ (Note.Links D)

namespace Links

variable {m m' n n' : List Note}

theorem append (h : Links D m m') (h' : Links D n n') : Links D (m ++ n) (m' ++ n') :=
  rel_append h h'

theorem both (h : Links D m m' ∧ Links D n n') : Links D (m ++ n) (m' ++ n') := h.1.append h.2

theorem filterMap_eq {α : Type} {f : Note → Option α} (hf : ∀ a b, Note.Links D a b → f b = f a)
    (h : Links D m m') : m'.filterMap f = m.filterMap f := by
  induction h with
  | nil => rfl
  | cons hNote _ ih => rw [filterMap_cons, filterMap_cons, hf _ _ hNote, ih]

theorem declaredIn_eq (h : Links D m m') : declaredIn m' = declaredIn m :=
  h.filterMap_eq fun _ _ hNote => by cases hNote <;> rfl

theorem labelsIn_eq (h : Links D m m') : labelsIn m' = labelsIn m :=
  h.filterMap_eq fun _ _ hNote => by cases hNote <;> rfl

/-- Where a declaration stands afterwards, it stood before. -/
theorem mem_declares (h : Links D m m') {kind : SymbolKind} {ty : Ty}
    (hb : Note.declares kind ty entry ∈ m') : Note.declares kind ty entry ∈ m := by
  obtain ⟨a, ha, hLinks⟩ := exists_of_mem_right h hb
  cases hLinks
  exact ha

theorem mem_variable (h : Links D m m') (hb : Note.uses .local entry ∈ m') :
    Note.uses .local entry ∈ m := by
  obtain ⟨a, ha, hLinks⟩ := exists_of_mem_right h hb
  cases hLinks with
  | mentions => exact ha
  | bound _ hWant => exact absurd rfl hWant

theorem mem_bound (h : Links D m m') (hWant : want ≠ .local) (hb : Note.uses want entry ∈ m') :
    ∃ s, entry = some s ∧ s.kind.serves want = true ∧ D s := by
  obtain ⟨a, ha, hLinks⟩ := exists_of_mem_right h hb
  cases hLinks with
  | mentions => exact absurd rfl hWant
  | bound _ _ hServes hKnown => exact ⟨_, rfl, hServes, hKnown⟩

end Links

/-- A use about which there is no complaint is bound to a symbol of an open scope. -/
theorem rebind_assures {name : String} {pos : Pos} {what : String} (hChain : ∀ sc ∈ chain, sc.All D)
    (hWant : want ≠ .local) (entry : Option Symbol) :
    Assures (rebindProblems chain name want pos what)
      (Links D [.uses want entry] [.uses want (rebind chain name want entry)]) := by
  unfold rebindProblems
  split
  · next s hLookup =>
    obtain ⟨hServes, sc, hsc, hMem⟩ := Scope.lookupKind?_mem hLookup
    rw [rebind, hLookup]
    exact .nothing (.cons (.bound entry hWant hServes (hChain sc hsc s hMem)) .nil)
  · exact ⟨by simp [undeclared, Diagnostic.isError], by simp⟩

section

variable (hChain : ∀ sc ∈ chain, sc.All D)
include hChain

/-- Resolution binds the calls at sites about which there is no complaint. -/
theorem Site.link_assures (ss : List Site) : Assures (ss.flatMap (·.linkProblems chain))
    (Links D (ss.filterMap note?) ((ss.map (·.link chain)).filterMap note?)) := by
  induction ss with
  | nil => exact .nothing .nil
  | cons s ss ih =>
    cases s with
    | gap => exact ih
    | ident v => exact ih.imp (.cons (.mentions v.entry))
    | callee p name c => exact ((rebind_assures hChain (by simp) c).append ih).imp Links.both

namespace Expr

theorem linkAll_assures (es : List Expr) :
    Assures (linkAllProblems chain es) (Links D (notesAll es) (notesAll (linkAll chain es))) := by
  rw [notesAll_eq, notesAll_eq, (charts_all chain es).linked, (charts_all chain es).unlinked]
  exact Site.link_assures hChain _

theorem link_assures (x : Expr) : Assures (x.linkProblems chain) (Links D x.notes (x.link chain).notes) := by
  rw [notes_eq, notes_eq, (x.sites_charts chain).linked, (x.sites_charts chain).unlinked]
  exact Site.link_assures hChain _

end Expr

end

/-- The scopes that are searched from a block have what its own scope and those around have. -/
theorem blockChain_all (hScope : ∀ sc ∈ scope.toList, sc.All D) (hAround : ∀ sc ∈ around, sc.All D) :
    ∀ sc ∈ blockChain scope around, sc.All D := by
  cases scope with
  | none => simp [blockChain]
  | some s => simpa [blockChain] using ⟨hScope s (by simp), hAround⟩

theorem bodyAround_all (hScope : ∀ sc ∈ scope.toList, sc.All D) (hAround : ∀ sc ∈ around, sc.All D) :
    ∀ sc ∈ bodyAround scope around, sc.All D := by
  intro sc hsc
  rcases List.mem_append.mp hsc with hsc | hsc
  · exact hScope sc hsc
  · exact hAround sc hsc

namespace Stmt

theorem linkAll_assures {here : List Scope} {ss : List Stmt}
    (ih : ∀ s ∈ ss, ∀ here around, (∀ sc ∈ here, sc.All D) → (∀ sc ∈ around, sc.All D) →
      (∀ sc ∈ s.scopes, sc.All D) → Assures (s.linkProblems here around)
        (Links D s.notes (s.link here around).notes))
    (hHere : ∀ sc ∈ here, sc.All D) (hAround : ∀ sc ∈ around, sc.All D)
    (hScopes : ∀ sc ∈ scopesAll ss, sc.All D) :
    Assures (linkAllProblems here around ss) (Links D (notesAll ss) (notesAll (linkAll here around ss))) := by
  induction ss with
  | nil => exact .nothing .nil
  | cons s ss ihList =>
    simp only [mem_cons, forall_eq_or_imp] at ih
    simp only [scopesAll, mem_append, or_imp, forall_and] at hScopes
    exact ((ih.1 here around hHere hAround hScopes.1).append (ihList ih.2 hScopes.2)).imp Links.both

/-- Resolution reports errors only. It binds the calls, jumps and state changes of a statement about which
there is no complaint, each to a symbol of the scopes around it or in it. -/
theorem link_assures {D : Symbol → Prop} (s : Stmt) (here around : List Scope)
    (hHere : ∀ sc ∈ here, sc.All D)
    (hAround : ∀ sc ∈ around, sc.All D) (hScopes : ∀ sc ∈ s.scopes, sc.All D) :
    Assures (s.linkProblems here around) (Links D s.notes (s.link here around).notes) := by
  induction s generalizing here around with
  | block p scope ss ih =>
    simp only [scopes, mem_append, or_imp, forall_and] at hScopes
    have hChain := blockChain_all hScopes.1 hAround
    exact linkAll_assures ih hChain hChain hScopes.2
  | expr p x => exact x.link_assures hHere
  | decl p name ty init entry =>
    exact (init.link_assures hHere).imp (·.append (.cons (.declares .local ty entry) .nil))
  | ifThen p c ts t es e iht ihe =>
    simp only [scopes, mem_append, or_imp, forall_and] at hScopes
    obtain ⟨⟨hts, ht⟩, hes, he⟩ := hScopes
    have hThen := (c.link_assures hHere).append (iht here _ hHere (bodyAround_all hts hAround) ht)
    exact ((hThen.imp Links.both).append (ihe here _ hHere (bodyAround_all hes hAround) he)).imp Links.both
  | whileLoop p c bs b ih =>
    simp only [scopes, mem_append, or_imp, forall_and] at hScopes
    have hBody := ih here _ hHere (bodyAround_all hScopes.1 hAround) hScopes.2
    exact ((c.link_assures hHere).append hBody).imp Links.both
  | doWhile p bs b c ih =>
    simp only [scopes, mem_append, or_imp, forall_and] at hScopes
    have hBody := ih here _ hHere (bodyAround_all hScopes.1 hAround) hScopes.2
    exact (hBody.append (c.link_assures hHere)).imp Links.both
  | forLoop p init c step bs b ih =>
    simp only [scopes, mem_append, or_imp, forall_and] at hScopes
    have hStart := ((Expr.linkAll_assures hHere init).append (c.link_assures hHere)).imp Links.both
    have hHead := (hStart.append (Expr.linkAll_assures hHere step)).imp Links.both
    exact (hHead.append (ih here _ hHere (bodyAround_all hScopes.1 hAround) hScopes.2)).imp Links.both
  | jump p l entry | goto p name entry => exact rebind_assures hHere (by simp) entry
  | label p name entry => exact .nothing (.cons (.declares .label .void entry) .nil)
  | ret p v => exact v.link_assures hHere
  | _ => exact .nothing .nil

end Stmt
end Lsl
