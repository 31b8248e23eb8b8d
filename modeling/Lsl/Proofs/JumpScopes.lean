import Lsl.Proofs.PreparedScripts
import Lsl.Proofs.ScopedScripts

/-! Jumps and the scopes around them. A jump is bound to the nearest label of its name, sought from the
nearest block outward. The bodies of control statements that stand between a jump and its block have
scopes too, in which nothing is sought: a label declared there is out of reach. -/
namespace Lsl

open List

variable {syms env : List Symbol} {sym : Symbol} {chain here around : List Scope} {ps : List Param}
  {visible : List LibraryFunction} {ds : List Diagnostic} {round : Nat}

variable {ss : List Stmt} {sight : Sight} {s : Stmt}

/-- The nearest label of a name among those of nested scopes, the innermost first. -/
def nearestLabel (scopes : List (List Symbol)) (name : String) : Option Symbol :=
  scopes.findSome? fun labels => labels.find? (·.name == name)

/-- The labels of the scopes around a place in a body. -/
structure Sight where
  /-- Those of the bodies of control statements around the place in its block, the innermost first. -/
  bodies : List (List Symbol)
  /-- Those among the labels of the block that are whole bodies of its control statements. -/
  bare : List Symbol
  /-- Those of the block that the place stands in. -/
  here : List Symbol
  /-- Those of the scopes around the block, the innermost first. -/
  outer : List (List Symbol)

namespace Sight

def scopes (sight : Sight) : List (List Symbol) := sight.bodies ++ sight.here :: sight.outer

/-- The labels of the scopes in which the label of a jump is sought. -/
def searched (sight : Sight) : List (List Symbol) := sight.here :: sight.outer

/-- The labels of the block have different names, and those that are bodies of its control statements are
among them. -/
structure Orderly (sight : Sight) : Prop where
  apart : Symbol.Apart sight.here
  bare : sight.bare ⊆ sight.here

def block (outer : List (List Symbol)) (ss : List Stmt) : Sight where
  bodies := []
  bare := ss.flatMap Stmt.bodyLabels
  here := Stmt.ownAll ss
  outer := outer

/-- The sight from the body of a control statement, which has a scope of its own unless it is a block or a
label. -/
def body (sight : Sight) (b : Stmt) : Sight :=
  { sight with bodies := (if b.sharesScope then [] else [b.own]) ++ sight.bodies }

end Sight

/-- A jump with the labels in the scopes around it. -/
structure OpenJump where
  pos : Pos
  label : String
  entry : Option Symbol
  sight : Sight

namespace OpenJump

/-- The jump bound to the nearest label in the scopes that are searched. -/
def bind (j : OpenJump) : OpenJump :=
  { j with entry := (nearestLabel j.sight.searched j.label).or j.entry }

/-- The complaint about a jump whose label is not in the scopes that are searched. -/
def problems (j : OpenJump) : List Diagnostic :=
  if (nearestLabel j.sight.searched j.label).isSome then [] else [undeclared j.pos "label" j.label]

end OpenJump

namespace Stmt

mutual

/-- The jumps of a statement at a place with the given sight. -/
def openJumps (sight : Sight) : Stmt → List OpenJump
  | missing | expr .. | decl .. | label .. | ret .. | goto .. | empty _ => []
  | block _ _ ss => openJumpsAll (.block sight.scopes ss) ss
  | ifThen _ _ _ t _ e => openJumps (sight.body t) t ++ openJumps (sight.body e) e
  | .while _ _ _ b | doWhile _ _ b _ | .for _ _ _ _ _ b => openJumps (sight.body b) b
  | jump p l entry => [⟨p, l, entry, sight⟩]

def openJumpsAll (sight : Sight) : List Stmt → List OpenJump
  | [] => []
  | s :: ss => openJumps sight s ++ openJumpsAll sight ss

end

end Stmt

def Block.openJumps (b : Block) : List OpenJump := Stmt.openJumpsAll (.block [] b.stmts) b.stmts

def Script.openJumps (s : Script) : List OpenJump :=
  s.routines.flatMap fun r => r.body.toList.flatMap Block.openJumps

/-! Where labels are found. -/

/-- In a scope of different names it makes no difference whether a name is looked up before or after other
kinds are left out. -/
theorem Symbol.Apart.find?_filter (h : Apart syms) (p : Symbol → Bool) (name : String) :
    (syms.find? (·.name == name)).filter p = (syms.filter p).find? (·.name == name) := by
  induction syms with
  | nil => rfl
  | cons sym syms ih =>
    obtain ⟨hHead, hTail⟩ := List.nodup_cons.mp h
    have hRest := ih hTail
    by_cases hName : sym.name = name
    · subst hName
      have hNone : syms.find? (·.name == sym.name) = none := by
        simp only [List.find?_eq_none, beq_iff_eq]
        exact fun other hOther hSame => hHead (List.mem_map.mpr ⟨other, hOther, hSame⟩)
      rw [hNone, Option.filter_none] at hRest
      cases hp : p sym with
      | true => simp [hp, Option.filter_some]
      | false => simp [hp, Option.filter_some, ← hRest]
    · have hOther : (sym.name == name) = false := by simpa using hName
      rw [List.find?_cons_of_neg (by simpa using hName), hRest]
      cases hp : p sym with
      | true => simp [hp, hOther]
      | false => simp [hp]

/-- A symbol is found under its name among symbols of different names. -/
theorem Symbol.Apart.find?_mem (h : Apart syms) (hMem : sym ∈ syms) :
    syms.find? (·.name == sym.name) = some sym := by
  induction syms with
  | nil => cases hMem
  | cons other syms ih =>
    obtain ⟨hHead, hTail⟩ := List.nodup_cons.mp h
    rcases List.mem_cons.mp hMem with rfl | hMem
    · exact List.find?_cons_of_pos (by simp)
    · have hOther : other.name ≠ sym.name :=
        fun hSame => hHead (List.mem_map.mpr ⟨sym, hMem, hSame.symm⟩)
      rw [List.find?_cons_of_neg (by simpa using hOther)]
      exact ih hTail hMem

def Scope.ShowsLabels (chain : List Scope) (labels : List (List Symbol)) : Prop :=
  ∀ name, lookupKind? chain name .label = nearestLabel labels name

theorem Scope.ShowsLabels.cons {own : List Symbol} {labels : List (List Symbol)}
    (h : ShowsLabels chain labels) (hApart : Symbol.Apart syms)
    (hOwn : syms.filter (·.kind == .label) = own) : ShowsLabels (⟨syms⟩ :: chain) (own :: labels) := by
  intro name
  have hHere := hApart.find?_filter (·.kind == .label) name
  rw [hOwn] at hHere
  have hOuter := h name
  unfold lookupKind? nearestLabel at hOuter ⊢
  rw [List.findSome?_cons, List.findSome?_cons, ← hOuter, ← hHere]
  rfl

theorem Scope.showsLabels_nil (h : ∀ sc ∈ chain, ∀ sym ∈ sc.symbols, sym.kind ≠ .label) :
    ShowsLabels chain [] := by
  intro name
  cases hFind : lookupKind? chain name .label with
  | none => rfl
  | some sym =>
    obtain ⟨hServes, sc, hsc, hMem⟩ := lookupKind?_mem hFind
    exact absurd (by simpa [SymbolKind.serves] using hServes) (h sc hsc sym hMem)

namespace Stmt

theorem label?_kind (h : s.Bound round env) : ∀ sym ∈ s.label?.toList, sym.kind = .label := by
  cases s with
  | label p name entry =>
    obtain ⟨index, rfl⟩ := h
    simp [label?]
  | _ => simp [label?]

/-- Of the symbols that a statement adds to its scope, the labels are its own. -/
theorem standing_labels (h : s.Bound round env) : s.standing.filter (·.kind == .label) = s.own := by
  have hOwn : ∀ {syms : List Symbol}, (∀ sym ∈ syms, sym.kind = .label) →
      syms.filter (·.kind == .label) = syms := by
    intro syms hKind
    exact List.filter_eq_self.mpr fun sym hSym => by simp [hKind sym hSym]
  cases s with
  | decl p name ty init entry =>
    obtain ⟨_, index, rfl⟩ := h
    rfl
  | label p name entry => exact hOwn (by simpa [standing, own, varSymbol?, bodyLabels] using label?_kind h)
  | ifThen p c ts t es e =>
    obtain ⟨_, ⟨_, ht⟩, _, he⟩ := h
    refine hOwn fun sym hSym => ?_
    change sym ∈ t.label?.toList ++ e.label?.toList at hSym
    rcases List.mem_append.mp hSym with hSym | hSym
    · exact label?_kind ht sym hSym
    · exact label?_kind he sym hSym
  | «while» p c bs b | doWhile p bs b c | «for» p init c step bs b =>
    obtain ⟨_, _, hb⟩ := h
    exact hOwn (label?_kind hb)
  | _ => rfl

theorem standingAll_labels (h : BoundAll round env ss) :
    (standingAll ss).filter (·.kind == .label) = ownAll ss := by
  induction ss generalizing env with
  | nil => rfl
  | cons s ss ih =>
    obtain ⟨hs, hss⟩ := h
    have hTail := ih hss
    simp only [standingAll, ownAll] at hTail
    simp only [standingAll, ownAll, flatMap_cons, filter_append, standing_labels hs, hTail]

theorem ownAll_apart (h : Symbol.Apart (standingAll ss))
    (hBound : BoundAll round env ss) : Symbol.Apart (ownAll ss) := by
  rw [← standingAll_labels hBound]
  exact h.sublist (List.filter_sublist.map _)

theorem link_bodyLabels (here around : List Scope) (s : Stmt) :
    (s.link here around).bodyLabels = s.bodyLabels := by
  have hDeclared : Stage.declared ≠ .raw := by decide
  rw [← bodyLabels_forget hDeclared, link_keeps (by decide), bodyLabels_forget hDeclared]

theorem link_sharesScope (here around : List Scope) (s : Stmt) :
    (s.link here around).sharesScope = s.sharesScope := by
  cases s <;> rfl

theorem sight_linkAll (outer : List (List Symbol)) (here around : List Scope) (ss : List Stmt) :
    Sight.block outer (linkAll here around ss) = Sight.block outer ss := by
  have hBare : (linkAll here around ss).flatMap bodyLabels = ss.flatMap bodyLabels := by
    induction ss with
    | nil => rfl
    | cons s ss ih => rw [linkAll, flatMap_cons, flatMap_cons, link_bodyLabels, ih]
  rw [Sight.block, Sight.block, linkAll_ownAll, hBare]

theorem sight_link (sight : Sight) (here around : List Scope) (s : Stmt) :
    sight.body (s.link here around) = sight.body s := by
  rw [Sight.body, Sight.body, link_sharesScope, link_own]

theorem ownScope_eq_none (h : s.sharesScope = true) : s.ownScope = none := by
  cases s with
  | missing | block | label => rfl
  | _ => cases h

/-- The scopes around the body of a control statement hold the labels in sight from it. -/
theorem bodyAround_shows {b : Stmt} {scope : Option Scope}
    (hScope : scope = b.ownScope ∧ Symbol.Apart b.standing) (hBound : b.Bound round env)
    (hAround : Scope.ShowsLabels around sight.scopes) :
    Scope.ShowsLabels (bodyAround scope around) (sight.body b).scopes := by
  obtain ⟨rfl, hApart⟩ := hScope
  cases hShares : b.sharesScope with
  | true =>
    have hNone := ownScope_eq_none hShares
    simpa [bodyAround, hNone, Sight.body, Sight.scopes, hShares] using hAround
  | false =>
    have hSome := (ownScope_eq hShares).1
    have hShows := hAround.cons hApart (standing_labels hBound)
    simpa [bodyAround, hSome, Sight.body, Sight.scopes, hShares] using hShows

end Stmt

/-- A label that is the body of a control statement of a block is the one that the block's jumps find. -/
theorem Sight.Orderly.nearestLabel (h : sight.Orderly) (hBare : sym ∈ sight.bare) :
    nearestLabel sight.searched sym.name = some sym := by
  rw [Lsl.nearestLabel, searched, List.findSome?_cons, h.apart.find?_mem (h.bare hBare)]

theorem Stmt.sight_orderly (outer : List (List Symbol)) (h : Symbol.Apart (ownAll ss)) :
    (Sight.block outer ss).Orderly where
  apart := h
  bare := by
    intro sym hSym
    obtain ⟨s, hs, hSym⟩ := List.mem_flatMap.mp hSym
    exact List.mem_flatMap.mpr ⟨s, hs, mem_append_right _ hSym⟩

/-- Resolution has bound each of the given jumps and complained about those it could not bind. -/
structure Binds (js js' : List OpenJump) (ds : List Diagnostic) : Prop where
  orderly : ∀ j ∈ js, j.sight.Orderly
  jumps : js' = js.map OpenJump.bind
  problems : (js.flatMap OpenJump.problems).Sublist ds

namespace Binds

variable {js js' ks ks' : List OpenJump} {es : List Diagnostic}

theorem nil (ds : List Diagnostic) : Binds [] [] ds := ⟨by simp, rfl, nil_sublist ds⟩

theorem append (h : Binds js js' ds) (h' : Binds ks ks' es) : Binds (js ++ ks) (js' ++ ks') (ds ++ es) where
  orderly := by simpa [or_imp, forall_and] using ⟨h.orderly, h'.orderly⟩
  jumps := by rw [h.jumps, h'.jumps, map_append]
  problems := by
    rw [flatMap_append]
    exact h.problems.append h'.problems

theorem mono (h : Binds js js' ds) (hMore : ds.Sublist es) : Binds js js' es :=
  ⟨h.orderly, h.jumps, h.problems.trans hMore⟩

end Binds

namespace Stmt

theorem jump_binds (p : Pos) (l : String) (entry : Option Symbol) (hOrderly : sight.Orderly)
    (hHere : Scope.ShowsLabels here sight.searched) :
    Binds [⟨p, l, entry, sight⟩] [⟨p, l, rebind here l .label entry, sight⟩]
      (rebindProblems here l .label p "label") where
  orderly := by simpa using hOrderly
  jumps := by rw [rebind, hHere l]; rfl
  problems := by
    rw [rebindProblems, hHere l]
    cases hFind : nearestLabel sight.searched l with
    | some sym => simp [OpenJump.problems, hFind]
    | none => simp [OpenJump.problems, hFind]

theorem linkAll_binds
    (ih : ∀ s ∈ ss, ∀ sight here around env, sight.Orderly → Scope.ShowsLabels here
      sight.searched → Scope.ShowsLabels around sight.scopes → s.Bound round env →
        Binds (s.openJumps sight) ((s.link here around).openJumps sight) (s.linkProblems here around))
    (hOrderly : sight.Orderly) (hHere : Scope.ShowsLabels here sight.searched)
    (hAround : Scope.ShowsLabels around sight.scopes) (hBound : BoundAll round env ss) :
    Binds (openJumpsAll sight ss) (openJumpsAll sight (linkAll here around ss))
      (linkAllProblems here around ss) := by
  induction ss generalizing env with
  | nil => exact .nil _
  | cons s ss ihTail =>
    obtain ⟨hs, hss⟩ := hBound
    exact (ih s (by simp) _ _ _ _ hOrderly hHere hAround hs).append
      (ihTail (fun t ht => ih t (by simp [ht])) hss)

/-- Resolution binds the jumps of a statement to the nearest labels in the scopes that are searched. -/
theorem link_binds (s : Stmt) (sight : Sight) (here around : List Scope) (env : List Symbol)
    (hOrderly : sight.Orderly) (hHere : Scope.ShowsLabels here sight.searched)
    (hAround : Scope.ShowsLabels around sight.scopes) (hBound : s.Bound round env) :
    Binds (s.openJumps sight) ((s.link here around).openJumps sight) (s.linkProblems here around) := by
  induction s generalizing sight here around env with
  | block p scope ss ih =>
    obtain ⟨⟨rfl, hApart⟩, hBound⟩ := hBound
    have hChain : Scope.ShowsLabels (⟨standingAll ss⟩ :: around) (Sight.block sight.scopes ss).searched :=
      hAround.cons hApart (standingAll_labels hBound)
    simp only [link, openJumps, linkProblems, blockChain, sight_linkAll]
    exact linkAll_binds ih (sight_orderly _ (ownAll_apart hApart hBound)) hChain hChain hBound
  | ifThen p c ts t es e iht ihe =>
    obtain ⟨_, ⟨hts, ht⟩, hes, he⟩ := hBound
    simp only [link, openJumps, linkProblems, sight_link]
    have hThen :=
      iht (sight.body t) _ _ _ ⟨hOrderly.apart, hOrderly.bare⟩ hHere (bodyAround_shows hts ht hAround) ht
    have hElse :=
      ihe (sight.body e) _ _ _ ⟨hOrderly.apart, hOrderly.bare⟩ hHere (bodyAround_shows hes he hAround) he
    exact (hThen.mono (sublist_append_right ..)).append hElse
  | whileLoop p c bs b ih | forLoop p init c step bs b ih =>
    obtain ⟨_, hbs, hb⟩ := hBound
    simp only [link, openJumps, linkProblems, sight_link]
    exact (ih (sight.body b) _ _ _ ⟨hOrderly.apart, hOrderly.bare⟩ hHere
      (bodyAround_shows hbs hb hAround) hb).mono
      (sublist_append_right ..)
  | doWhile p bs b c ih =>
    obtain ⟨_, hbs, hb⟩ := hBound
    simp only [link, openJumps, linkProblems, sight_link]
    exact (ih (sight.body b) _ _ _ ⟨hOrderly.apart, hOrderly.bare⟩ hHere
      (bodyAround_shows hbs hb hAround) hb).mono
      (sublist_append_left ..)
  | jump p l entry => exact jump_binds p l entry hOrderly hHere
  | _ => exact .nil _

end Stmt

def bodyJumps (body : Option Block) : List OpenJump := body.toList.flatMap Block.openJumps

theorem notedAll_binds {α : Type} {step : α → Except Fault (Noted α)} {jumps : α → List OpenJump}
    {as as' : List α} (hStep : ∀ a ∈ as, ∀ a' ds, step a = .ok (a', ds) → Binds (jumps a)
      (jumps a') ds)
    (h : notedAll step as = .ok (as', ds)) : Binds (as.flatMap jumps) (as'.flatMap jumps) ds := by
  induction as generalizing as' ds with
  | nil =>
    cases h
    exact .nil _
  | cons a as ih =>
    simp only [notedAll, bind_eq_ok] at h
    obtain ⟨⟨a', da⟩, ha, ⟨as', ds'⟩, has, h⟩ := h
    cases h
    exact (hStep a (by simp) a' da ha).append (ih (fun x hx => hStep x (by simp [hx])) has)

theorem Global.bound_mem {gs : List Global} {g : Global} (h : BoundAll round env gs) (hMem : g ∈ gs) :
    ∃ env, g.Bound round env := by
  induction gs generalizing env with
  | nil => cases hMem
  | cons g' gs ih =>
    rcases List.mem_cons.mp hMem with rfl | hMem
    · exact ⟨env, h.1⟩
    · exact ih h.2 hMem

namespace Script

/-- Parameters are no labels, so the scope of a body holds the labels of its statements. -/
theorem blockChain_shows {b : Block} (hAround : Scope.ShowsLabels around []) (hBound : b.Bound round env ps) :
    Scope.ShowsLabels (blockChain b.scope around) (Sight.block [] b.stmts).searched ∧
      (Sight.block [] b.stmts).Orderly := by
  obtain ⟨hParams, ⟨hScope, hApart⟩, hStmts⟩ := hBound
  have hNone : (ps.filterMap (·.entry)).filter (·.kind == .label) = [] := by
    simp only [filter_eq_nil_iff, mem_filterMap]
    rintro sym ⟨p, hp, hEntry⟩
    obtain ⟨index, hDenotes⟩ := hParams p hp
    rw [hDenotes] at hEntry
    cases hEntry
    simp
  have hLabels : (ps.filterMap (·.entry) ++ Stmt.standingAll b.stmts).filter (·.kind == .label) =
      Stmt.ownAll b.stmts := by
    rw [filter_append, hNone, nil_append, Stmt.standingAll_labels hStmts]
  constructor
  · rw [hScope]
    exact hAround.cons hApart hLabels
  · apply Stmt.sight_orderly
    rw [← hLabels]
    exact hApart.sublist (List.filter_sublist.map _)

theorem resolveBody_binds {body body' : Option Block} (hAround : Scope.ShowsLabels around [])
    (hBound : ∀ b ∈ body, b.Bound round env ps) (h : resolveBody around body = .ok (body', ds)) :
    Binds (bodyJumps body) (bodyJumps body') ds := by
  simp only [resolveBody, bind_eq_ok, need_eq_ok, pure_eq_ok] at h
  obtain ⟨b, rfl, h⟩ := h
  cases h
  have hb := hBound b rfl
  obtain ⟨hChain, hOrderly⟩ := blockChain_shows hAround hb
  have hBinds := Stmt.linkAll_binds (fun s _ => s.link_binds) hOrderly hChain hChain hb.2.2
  simpa only [bodyJumps, Option.toList_some, flatMap_singleton, Block.openJumps,
    Stmt.sight_linkAll] using hBinds

/-- Resolution binds the jumps of a script in which declaration has found nothing. -/
theorem resolve_binds {s s₁ s₂ : Script} (hDeclare : s.declare visible round = (s₁, []))
    (h : s₁.resolve = .ok (s₂, ds)) :
    Binds s₁.openJumps s₂.openJumps ds := by
  obtain ⟨hGlobals, hStates⟩ := (declare_follows hDeclare).2 rfl
  have hDeclared := (declare_declared hDeclare).2 rfl
  have hScope : ∀ sc ∈ s₁.scope.toList, ∀ sym ∈ sc.symbols, sym.kind ≠ .label :=
    fun sc hsc sym hSym => (hDeclared.scope sc hsc sym hSym).kind_ne_label
  simp only [resolve, bind_eq_ok] at h
  obtain ⟨⟨globals, dg⟩, hFirst, ⟨states, dst⟩, hSecond, h⟩ := h
  cases h
  simp only [openJumps, routines, flatMap_append, flatMap_assoc]
  apply Binds.append
  · refine notedAll_binds (fun g hg g' ds hStep => ?_) hFirst
    obtain ⟨env, hBound⟩ := Global.bound_mem hGlobals hg
    cases g with
    | missing | var v =>
      cases hStep
      exact .nil _
    | function f =>
      simp only [resolveGlobal, bind_eq_ok] at hStep
      obtain ⟨⟨body, db⟩, hBody, hStep⟩ := hStep
      cases hStep
      simpa [Global.routines, Function.routine, bodyJumps] using
        resolveBody_binds (Scope.showsLabels_nil hScope) hBound hBody
  · refine notedAll_binds (fun st hst st' ds hStep => ?_) hSecond
    simp only [resolveState, bind_eq_ok, need_eq_ok] at hStep
    obtain ⟨t, rfl, ⟨events, de⟩, hEvents, hStep⟩ := hStep
    cases hStep
    have hAround : ∀ sc ∈ t.scope.toList ++ s₁.scope.toList, ∀ sym ∈ sc.symbols,
      sym.kind ≠ .label := by
      intro sc hsc
      rcases List.mem_append.mp hsc with hsc | hsc
      · exact fun sym hSym => (hDeclared.states t hst sc hsc sym hSym).kind_ne_label
      · exact hScope sc hsc
    simp only [stateRoutines, flatMap_assoc]
    refine notedAll_binds (fun e he e' ds hStep => ?_) hEvents
    simp only [resolveHandler, bind_eq_ok, need_eq_ok] at hStep
    obtain ⟨h₀, rfl, ⟨body, db⟩, hBody, hStep⟩ := hStep
    cases hStep
    simpa [handlerRoutines, Handler.routine, bodyJumps] using
      resolveBody_binds (Scope.showsLabels_nil hAround) (hStates t hst h₀ he) hBody

/-- Where declaration finds no error, resolution binds each jump to the nearest label of its name in the
scope of the block that the jump stands in or in a scope around that block, and complains about a jump for
which there is none. The bodies of control statements between the jump and its block are passed over. Where
none of them has a label of that name, the label is the nearest one in all scopes open at the jump; and a
label that is the whole body of a control statement of the block is found by the block's jumps. -/
theorem resolve_jumps {s s₁ : Script} {ds₁ : List Diagnostic}
    (hDeclare : s.declare visible round = (s₁, ds₁)) (hFailed : Diagnostic.failed ds₁ = false) :
    ∃ s₂ ds₂, s₁.resolve = .ok (s₂, ds₂) ∧ s₂.openJumps = s₁.openJumps.map OpenJump.bind ∧
      (s₁.openJumps.flatMap OpenJump.problems).Sublist ds₂ ∧
      ∀ j ∈ s₁.openJumps,
        (nearestLabel j.sight.bodies j.label = none →
          nearestLabel j.sight.searched j.label = nearestLabel j.sight.scopes j.label) ∧
        ∀ sym ∈ j.sight.bare, sym.name = j.label → nearestLabel j.sight.searched j.label = some sym :=
          by
  obtain ⟨⟨s₂, ds₂⟩, hResolve⟩ := resolve_succeeds (declare_named hDeclare hFailed).complete
  obtain rfl := Session.eq_nil_of_not_failed (declare_declared hDeclare).1 hFailed
  have hBinds := resolve_binds hDeclare hResolve
  refine ⟨s₂, ds₂, hResolve, hBinds.jumps, hBinds.problems, fun j hj => ⟨fun hNone => ?_, ?_⟩⟩
  · unfold nearestLabel at hNone ⊢
    rw [Sight.scopes, List.findSome?_append, hNone, Option.none_or]
    rfl
  · rintro sym hBare hName
    rw [← hName]
    exact (hBinds.orderly j hj).nearestLabel hBare

/-- A script of one body, `jump a; if (1) @a; if (1) if (1) @l; else jump l;`. The first label stands in the
scope of the body, and the second one in that of the outer control statement's body. -/
def crossing : Script :=
  let one : Expr := .int {} 1 .void
  let inner : Stmt := .ifThen {} one none (.label {} "l" none) none (.jump {} "l" none)
  let entry : Handler :=
    { pos := {}, name := "state_entry", params := []
      body := some
        { pos := {}
          stmts :=
            [.jump {} "a" none, .ifThen {} one none (.label {} "a" none) none .missing,
             .ifThen {} one none inner none .missing] } }
  { pos := {}
    globals := []
    states := [some { pos := {}, name := "default", events := [some entry] }] }

theorem crossing_declare : ∃ s₁, crossing.declare [] 0 = (s₁, []) := by
  have hRun : (crossing.declare [] 0).2.isEmpty = true := by decide +kernel
  cases hDeclare : crossing.declare [] 0 with
  | mk s₁ ds₁ =>
    rw [hDeclare] at hRun
    obtain rfl : ds₁ = [] := List.isEmpty_iff.mp hRun
    exact ⟨s₁, rfl⟩

/-- A label is declared in a scope open at a jump of its name, and yet the jump is not bound. -/
theorem resolve_misses_body_label :
    ∃ s₁ s₂ ds₂ j, crossing.declare [] 0 = (s₁, []) ∧ s₁.resolve = .ok (s₂, ds₂) ∧
      ds₂ ≠ [] ∧
      j ∈ s₂.openJumps ∧ nearestLabel j.sight.scopes j.label ≠ none ∧ j.entry = none := by
  have hRun : ((crossing.declare [] 0).1.resolve.toOption.bind fun r =>
      r.1.openJumps.getLast?.map fun j =>
        (r.2.isEmpty, (nearestLabel j.sight.scopes j.label).isSome, j.entry)) =
      some (false, true, none) := by decide +kernel
  obtain ⟨s₁, hDeclare⟩ := crossing_declare
  rw [hDeclare] at hRun
  cases hResolve : s₁.resolve with
  | error f => simp [hResolve, Except.toOption] at hRun
  | ok r =>
    simp only [hResolve, Except.toOption, Option.bind_some, Option.map_eq_some_iff, Prod.mk.injEq] at hRun
    obtain ⟨j, hLast, hFound, hLabel, hEntry⟩ := hRun
    refine ⟨s₁, r.1, r.2, j, hDeclare, hResolve, ?_, mem_of_getLast? hLast, ?_, hEntry⟩
    · intro hNone
      simp [hNone] at hFound
    · exact Option.isSome_iff_ne_none.mp hLabel

/-- In the same script the jump to the other label is bound. -/
theorem resolve_jumps_crossing :
    ∃ s₁ s₂ ds₂, crossing.declare [] 0 = (s₁, []) ∧ s₁.resolve = .ok (s₂, ds₂) ∧
      s₂.openJumps = s₁.openJumps.map OpenJump.bind ∧
      ∃ j ∈ s₁.openJumps, ∃ sym ∈ j.sight.bare, sym.name = j.label ∧
        nearestLabel j.sight.searched j.label = some sym := by
  have hRun : ((crossing.declare [] 0).1.openJumps.head?.bind fun j =>
      j.sight.bare.head?.map fun sym => sym.name == j.label) = some true := by decide +kernel
  obtain ⟨s₁, hDeclare⟩ := crossing_declare
  obtain ⟨s₂, ds₂, hResolve, hJumps, _, hSight⟩ := resolve_jumps hDeclare rfl
  rw [hDeclare] at hRun
  simp only [Option.bind_eq_some_iff, Option.map_eq_some_iff, beq_iff_eq] at hRun
  obtain ⟨j, hj, sym, hBare, hName⟩ := hRun
  exact ⟨s₁, s₂, ds₂, hDeclare, hResolve, hJumps, j, mem_of_head? hj, sym, mem_of_head? hBare,
    hName, (hSight j (mem_of_head? hj)).2 sym (mem_of_head? hBare) hName⟩

end Script
end Lsl
