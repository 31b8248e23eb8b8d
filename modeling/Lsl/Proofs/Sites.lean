import Lsl.Analysis.Declaration
import Lsl.Analysis.Resolution
import Lsl.Proofs.Trees

/-! The sites of an expression: what the analyses of names look at in it, in their order. Notes and complaints
stand at sites, and binding a name changes its site only. What is said of the variables and calls of a tree is
said of a list. -/
namespace Lsl

/-- A place where a part is missing, a variable, or the name of a function that is called. -/
inductive Site where
  | gap (pos : Pos) (message : String)
  | ident (v : Ident)
  | callee (pos : Pos) (name : String) (entry : Option Symbol)

namespace Site

def isFilled : Site → Bool
  | gap .. => false
  | _ => true

def note? : Site → Option Note
  | gap .. => none
  | ident v => some (.uses .local v.entry)
  | callee _ _ entry => some (.uses .function entry)

def bind (chain : List Scope) : Site → Site
  | ident v => ident (v.bind chain)
  | s => s

def bindProblems (chain : List Scope) : Site → List Diagnostic
  | gap pos message => [malformed pos message]
  | ident v => v.bindProblems chain
  | callee .. => []

def link (chain : List Scope) : Site → Site
  | callee pos name entry => callee pos name (rebind chain name .function entry)
  | s => s

def linkProblems (chain : List Scope) : Site → List Diagnostic
  | callee pos name _ => rebindProblems chain name .function pos "function"
  | _ => []

end Site

namespace Expr

variable {chain : List Scope} {es : List Expr} {v : Ident}

def targetSite (p : Pos) : Option Ident → Site
  | none => .gap p "assignment without target"
  | some v => .ident v

mutual

def sites : Expr → List Site
  | missing => [.gap {} "nil expression"]
  | int .. | float .. | string .. => []
  | vector _ x y z _ => sites x ++ sites y ++ sites z
  | rotation _ x y z s _ => sites x ++ sites y ++ sites z ++ sites s
  | list _ es _ => sitesAll es
  | ident v => [.ident v]
  | binary _ _ l r _ _ _ => sites l ++ sites r
  | assign p _ v x _ _ _ => sites x ++ [targetSite p v]
  | incDec p _ _ v _ => [targetSite p v]
  | call p name args c _ => sitesAll args ++ [.callee p name c]
  | unary _ _ x _ | cast _ _ x _ | paren _ x _ | print _ x _ => sites x

def sitesAll : List Expr → List Site
  | [] => []
  | e :: es => sites e ++ sitesAll es

end

/-- The sites of a tree account for its notes, for what the analyses find in it, and for what they make of
its sites. -/
structure Charts (chain : List Scope) (sites : List Site) (notes : List Note) (bound : List Site)
    (unbound : List Diagnostic) (linked : List Site) (unlinked : List Diagnostic) : Prop where
  notes : notes = sites.filterMap Site.note?
  bound : bound = sites.map (·.bind chain)
  unbound : unbound = sites.flatMap (·.bindProblems chain)
  linked : linked = sites.map (·.link chain)
  unlinked : unlinked = sites.flatMap (·.linkProblems chain)

theorem Charts.append {s s' b b' l l' : List Site} {m m' : List Note} {p p' q q' : List Diagnostic}
    (h : Charts chain s m b p l q) (h' : Charts chain s' m' b' p' l' q') :
    Charts chain (s ++ s') (m ++ m') (b ++ b') (p ++ p') (l ++ l') (q ++ q') := by
  obtain ⟨rfl, rfl, rfl, rfl, rfl⟩ := h
  obtain ⟨rfl, rfl, rfl, rfl, rfl⟩ := h'
  constructor <;> simp

theorem targetSite_charts (p : Pos) (v : Option Ident) :
    Charts chain [targetSite p v] (targetNotes v) [targetSite p (v.map (·.bind chain))]
      (Ident.targetProblems chain p v) [targetSite p v] [] := by
  cases v <;> constructor <;> simp [targetSite, targetNotes, Site.note?, Site.bind, Site.bindProblems,
    Site.link, Site.linkProblems, Ident.targetProblems]

theorem sitesAll_charts (ih : ∀ e ∈ es, Charts chain e.sites e.notes (e.bind chain).sites
    (e.bindProblems chain)
      (e.link chain).sites (e.linkProblems chain)) :
    Charts chain (sitesAll es) (notesAll es) (sitesAll (bindAll chain es)) (bindAllProblems chain es)
      (sitesAll (linkAll chain es)) (linkAllProblems chain es) := by
  induction es with
  | nil => exact ⟨rfl, rfl, rfl, rfl, rfl⟩
  | cons e es ihTail => exact (ih e (by simp)).append (ihTail fun x hx => ih x (by simp [hx]))

theorem sites_charts (chain : List Scope) (x : Expr) :
    Charts chain x.sites x.notes (x.bind chain).sites (x.bindProblems chain) (x.link chain).sites
      (x.linkProblems chain) := by
  induction x with
  | missing | int | float | string => exact ⟨rfl, rfl, rfl, rfl, rfl⟩
  | ident v => exact targetSite_charts {} (some v)
  | incDec p d b v t => exact targetSite_charts p v
  | vector p x y z t ihx ihy ihz => exact (ihx.append ihy).append ihz
  | rotation p x y z s t ihx ihy ihz ihs => exact ((ihx.append ihy).append ihz).append ihs
  | list p es t ih => exact sitesAll_charts ih
  | binary p op l r la ra t ihl ihr => exact ihl.append ihr
  | assign p op v x la ra t ih =>
    have h := ih.append (targetSite_charts p v)
    rw [List.append_nil] at h
    exact h
  | call p name args c t ih =>
    have hCallee : Charts chain [.callee p name c] [.uses .function c] [.callee p name c] []
        [.callee p name (rebind chain name .function c)] (rebindProblems chain name .function p "function") :=
      ⟨rfl, rfl, rfl, rfl, (List.append_nil _).symm⟩
    have h := (sitesAll_charts ih).append hCallee
    rw [List.append_nil] at h
    exact h
  | unary | cast | paren | print => assumption

theorem notes_eq (x : Expr) : x.notes = x.sites.filterMap Site.note? := (x.sites_charts []).notes

theorem charts_all (chain : List Scope) (es : List Expr) :
    Charts chain (sitesAll es) (notesAll es) (sitesAll (bindAll chain es)) (bindAllProblems chain es)
      (sitesAll (linkAll chain es)) (linkAllProblems chain es) :=
  sitesAll_charts fun e _ => e.sites_charts chain

theorem notesAll_eq (es : List Expr) : notesAll es = (sitesAll es).filterMap Site.note? :=
  (charts_all [] es).notes

theorem mem_sitesAll {s : Site} : s ∈ sitesAll es ↔ ∃ e ∈ es, s ∈ e.sites := by
  induction es with
  | nil => simp [sitesAll]
  | cons e es ih => simp [sitesAll, ih]

/-- The variables of an expression are its parts. -/
theorem ident_mem_sites {x : Expr} : .ident v ∈ x.sites ↔ ident v ∈ x.parts := by
  have hTarget : ∀ p w, .ident v = targetSite p w ↔ ident v ∈ ofTarget w := by
    intro p w
    cases w <;> simp [targetSite, ofTarget]
  induction x with
  | list p es t ih | call p name es c t ih =>
    simp only [sites, parts, List.mem_append, List.mem_cons, mem_sitesAll, mem_partsAll]
    grind
  | assign p op w x la ra t ih => simp [sites, parts, hTarget, ih, or_comm]
  | _ => simp_all [sites, parts]

end Expr
end Lsl
