import Lsl.Proofs.ClassLines
import Lsl.Proofs.LinkedCalls
import Lsl.Proofs.ScopedScripts
import Mathlib.Data.List.Flatten
import Mathlib.Data.List.Infix

/-! The members of the class that a script becomes. A field has the name of its variable, and a method that of
its function behind a mark, or those of its state and its event with nothing between them. Two events may
share such a name, one of them as the end of the other, but then they have different parameters. -/
namespace Lsl

open List

variable {fields : List (String × Ty)} {p : Program} {visible : List LibraryFunction}

namespace Assembly

open Text (OneLine)

/-- What the methods of a class are told apart by. -/
structure MethodHead where
  name : String
  params : List String

def MethodHead.ofTypes (name : String) (ts : List Ty) : MethodHead := ⟨name, ts.map typeName⟩

/-- The first line of a method. -/
inductive MethodHead.Opens : MethodHead → String → Prop
  | constructor : Opens (.ofTypes ".cctor" [])
      ".method private hidebysig specialname rtspecialname static void .cctor() cil managed"
  | method (kind name : String) (result : Ty) (slots : List Slot) :
      Opens (.ofTypes name (slots.map (·.ty)))
        (s!".method public hidebysig {kind} {typeName result} '{name}'" ++
          s!"({declarations slots}) cil managed")

def fieldLine (field : String × Ty) : String := s!".field public static {typeName field.2} '{field.1}'"

/-- A text that defines a class with these members and no others: of the lines that are written one after the
other, those that open a member are those of the fields and methods, and so are the lines of the text that do,
where the names allow to tell its lines apart. -/
def Defines (Names : Prop) (fields : List (String × Ty)) (methods : List MethodHead) (text : String) :
    Prop :=
  ∃ ls heads, text = written ls ∧ Forall₂ MethodHead.Opens methods heads ∧
    (ls.map Prod.snd).filter opensMember = fields.map fieldLine ++ heads ∧
    (Names → memberLines text = fields.map fieldLine ++ heads)

def functionHead (f : FunctionCode) : MethodHead := .ofTypes ("g" ++ f.name) f.body.paramTypes

def handlerHead (state : String) (h : HandlerCode) : MethodHead :=
  .ofTypes s!"e{state}{h.kind.name}" h.body.paramTypes

def methodHeads (p : Program) : List MethodHead :=
  .ofTypes ".cctor" [] :: p.functions.map functionHead ++ p.states.flatMap fun s => s.events.map
    (handlerHead s.name)

variable {Names : Prop} {gs : List GlobalData} {text : String}

/-- A text that is written in lines of which one opens a method and no other opens a member. -/
def IsMethod (Names : Prop) (m : MethodHead) (text : String) : Prop :=
  ∃ ls head, text = written ls ∧ m.Opens head ∧ Opening Names ls [head]

/-- Methods one after the other. -/
theorem isMethod_join {methods : List MethodHead} {texts : List String}
    (h : Forall₂ (IsMethod Names) methods texts) :
    ∃ ls heads, String.join texts = written ls ∧ Forall₂ MethodHead.Opens methods heads ∧
      Opening Names ls heads := by
  induction h with
  | nil => exact ⟨[], [], rfl, .nil, .nil⟩
  | cons hFirst _ ih =>
    obtain ⟨ls, head, rfl, hOpens, hLines⟩ := hFirst
    obtain ⟨ms, heads, hTexts, hRest, hOthers⟩ := ih
    exact ⟨ls ++ ms, head :: heads, by rw [String.join_cons, hTexts, written_append], .cons hOpens hRest,
      hLines.append hOthers⟩

/-- A method is its first line, and its body between braces. -/
theorem isMethod_braced {m : MethodHead} {head : String} {body : List String} (hOpens : m.Opens head)
    (hHead : Names → OneLine head) (hBody : Opening Names (body.map (2, ·)) []) :
    IsMethod Names m (line 1 head ++ braced 1 (lines 2 body)) := by
  have hMember : opensMember head = true := by
    cases hOpens with
    | constructor => decide
    | method => simp [opensMember, List.isPrefixOf]
  have hLeft : Opening Names [(1, "\x7b")] [] := .inner (by decide) fun _ => by decide
  have hRight : Opening Names [(1, "\x7d")] [] := .inner (by decide) fun _ => by decide
  refine ⟨[(1, head)] ++ ([(1, "\x7b")] ++ body.map (2, ·) ++ [(1, "\x7d")]), head, ?_, hOpens,
    (Opening.head hMember hHead).append ((hLeft.append hBody).append hRight)⟩
  simp only [written_append, written_lines, braced]
  simp [written]

theorem method_isMethod {kind name : String} {f : Frame} (h : method kind name f = .ok text)
    (hKind : OneLine kind)
    (hName : Names → OneLine name) (hGlobals : Names → ∀ g ∈ f.globals, OneLine g.name)
    (hNames : Names → ∀ n ∈ bodyNames f.body, OneLine n) :
    IsMethod Names (.ofTypes name f.body.paramTypes) text := by
  obtain ⟨code, hCode, hText⟩ := bind_eq_ok.mp h
  cases hText
  have hSlots : Names → ∀ s ∈ f.body.params ++ f.body.locals, OneLine s.name := fun hPlain s hs =>
    hNames hPlain s.name (mem_append_left _ (mem_map_of_mem hs))
  have hDeclared : ∀ slots ⊆ f.body.params ++ f.body.locals, Names → OneLine (declarations slots) := by
    intro slots hSubset hPlain
    refine Text.oneLine_intercalate (List.forall_mem_map.mpr fun s hs => ?_)
    simp +decide [hSlots hPlain s (hSubset hs)]
  have hParams := hDeclared f.body.params (subset_append_left _ _)
  have hLocals := hDeclared f.body.locals (subset_append_right _ _)
  have hLines : ∀ l ∈ code.flatten, CodeLine Names l := by
    intro l hl
    obtain ⟨ls, hls, hl⟩ := List.mem_flatten.mp hl
    obtain ⟨i, hi, hLines⟩ := exists_of_mem_right (mapM_eq_ok.mp hCode) hls
    refine lines_code hLines hGlobals (fun hPlain n hn => hNames hPlain n ?_) l hl
    exact mem_append_right _ (List.mem_flatMap.mpr ⟨i, hi, hn⟩)
  have hStack : Opening Names [(2, ".maxstack 500")] [] := .inner (by decide) fun _ => by decide
  have hDeclaration : Opening Names ((if f.body.locals.isEmpty then [] else
      [s!".locals init ({declarations f.body.locals})"]).map (2, ·)) [] := by
    split
    · exact .nil
    · exact .inner (by simp [opensMember, List.isPrefixOf]) fun hPlain => by simp +decide [hLocals hPlain]
  have hCode : Opening Names (code.flatten.map (2, ·)) [] := .code hLines
  have hBody := (hStack.append hDeclaration).append hCode
  rw [← map_singleton (f := (2, ·)), ← map_append, ← map_append] at hBody
  obtain ⟨ls, head, hText, hOpens, hOpening⟩ := isMethod_braced
    (.method kind name f.body.result f.body.params)
      (fun hPlain => by simp +decide [hKind, hName hPlain, hParams hPlain]) hBody
  have hGap : Opening Names [(1, "")] [] := .inner (by decide) fun _ => by decide
  refine ⟨[(1, "")] ++ ls, head, ?_, hOpens, hGap.append hOpening⟩
  rw [written_append, ← hText, String.append_assoc]
  rfl

theorem functionMethod_isMethod {f : FunctionCode} (h : functionMethod gs f = .ok text)
    (hNames : Names → (∀ g ∈ gs, OneLine g.name) ∧ ∀ n ∈ f.name :: bodyNames f.body, OneLine n) :
    IsMethod Names (functionHead f) text := by
  unfold functionMethod at h
  split at h
  · next hMethod =>
    cases h
    refine method_isMethod hMethod (by decide) (fun hPlain => ?_) (fun hPlain => (hNames hPlain).1)
      fun hPlain n hn => (hNames hPlain).2 n (.tail _ hn)
    simp +decide [(hNames hPlain).2 f.name (.head _)]
  · cases h

theorem handlerMethod_isMethod {state : String} {k : HandlerCode} (h : handlerMethod gs state k = .ok text)
    (hNames : Names → (∀ g ∈ gs, OneLine g.name) ∧ OneLine state ∧ ∀ n ∈ bodyNames k.body,
      OneLine n) :
    IsMethod Names (handlerHead state k) text := by
  unfold handlerMethod at h
  split at h
  · next hMethod =>
    cases h
    refine method_isMethod hMethod (by decide) (fun hPlain => ?_) (fun hPlain => (hNames hPlain).1)
      fun hPlain => (hNames hPlain).2.2
    simp +decide [(hNames hPlain).2.1]
  · cases h

theorem constructor_isMethod (hNames : Names → ∀ g ∈ gs, OneLine g.name) :
    IsMethod Names (.ofTypes ".cctor" []) (staticConstructor gs) := by
  refine isMethod_braced .constructor (fun _ => by decide) ?_
  have hLines : ∀ l ∈ gs.flatMap fieldValue ++ ["ret"], CodeLine Names l := by
    refine List.forall_mem_append.mpr ⟨fun l hl => ?_, by simp +decide [CodeLine]⟩
    obtain ⟨g, hg, hl⟩ := List.mem_flatMap.mp hl
    simp only [fieldValue, mem_append, mem_singleton] at hl
    rcases hl with (hl | hl) | rfl
    · exact constant_code _ l hl
    · exact cast_code _ _ l hl
    · simpa +decide [CodeLine, field] using fun hPlain => hNames hPlain g hg
  have hStack : Opening Names [(2, ".maxstack 500")] [] := .inner (by decide) fun _ => by decide
  rw [append_assoc, map_append]
  exact hStack.append (.code hLines)

theorem Opening.defines {ls : List (Nat × String)} {methods : List MethodHead} {heads : List String}
    (h : Opening Names ls (fields.map fieldLine ++ heads)) (hOpens : Forall₂ MethodHead.Opens methods heads)
    (hText : text = written ls) :
    Defines Names fields methods text :=
  ⟨ls, heads, hText, hOpens, h.heads, fun hNames => hText ▸ h.memberLines hNames⟩

theorem fields_opening (h : Names → ∀ f ∈ fields, OneLine f.1) :
    Opening Names ((fields.map fieldLine).map (1, ·)) (fields.map fieldLine) := by
  induction fields with
  | nil => exact .nil
  | cons f fields ih =>
    have hLine : fieldLine f = ".field public static " ++ typeName f.2 ++ " '" ++ f.1 ++ "'" := rfl
    have hOpens : opensMember (fieldLine f) = true := by simp [hLine, opensMember, List.isPrefixOf]
    refine (Opening.head hOpens fun hNames => ?_).append (ih fun hNames g hg => h hNames g (.tail _ hg))
    simp +decide [hLine, h hNames f (.head _)]

/-- The text of a class defines a field for each global variable, the constructor, and a method for each
function and each handler. -/
theorem generate_defines (h : generate p = .ok text) :
    Defines (Plain p) (p.globals.map fun g => (g.name, g.ty)) (methodHeads p) text := by
  simp only [generate, bind_eq_ok, pure_eq_ok] at h
  obtain ⟨functions, hFunctions, handlers, hHandlers, rfl⟩ := h
  have hNames : Plain p → (∀ g ∈ p.globals, OneLine g.name) ∧
      (∀ f ∈ p.functions, ∀ n ∈ f.name :: bodyNames f.body, OneLine n) ∧
      ∀ s ∈ p.states, ∀ n ∈ s.name :: s.events.flatMap (fun h => bodyNames h.body), OneLine n := by
    intro hPlain
    simpa only [Plain, classNames, forall_mem_append, forall_mem_map, forall_mem_flatMap,
      and_assoc] using hPlain
  have hFunctions : Forall₂ (IsMethod (Plain p)) (p.functions.map functionHead) functions := by
    rw [forall₂_map_left_iff]
    refine forall₂_imp_mem (mapM_eq_ok.mp hFunctions) fun f hf _ hText => ?_
    exact functionMethod_isMethod hText fun hPlain => ⟨(hNames hPlain).1, (hNames hPlain).2.1 f hf⟩
  have hHandlers : Forall₂ (IsMethod (Plain p))
      (p.states.flatMap fun s => s.events.map (handlerHead s.name)) handlers.flatten := by
    refine rel_flatten ?_
    rw [forall₂_map_left_iff]
    refine forall₂_imp_mem (mapM_eq_ok.mp hHandlers) fun s hs _ hTexts => ?_
    rw [forall₂_map_left_iff]
    refine forall₂_imp_mem (mapM_eq_ok.mp hTexts) fun k hk _ hText => ?_
    have hState := fun hPlain => (hNames hPlain).2.2 s hs
    exact handlerMethod_isMethod hText fun hPlain => ⟨(hNames hPlain).1, hState hPlain _ (.head _),
      fun n hn =>
      hState hPlain n (.tail _ (List.mem_flatMap.mpr ⟨k, hk, hn⟩))⟩
  obtain ⟨ls, heads, hTexts, hOpens, hOpening⟩ := isMethod_join
    (rel_append (.cons (constructor_isMethod fun hPlain => (hNames hPlain).1) hFunctions) hHandlers)
  have hFixed : ∀ l ∈ preamble ++ ["\x7b", "\x7d"], opensMember l = false ∧ l.toList.head? ≠ some
    ' ' ∧ OneLine l := by
    decide +kernel
  have hOuter : ∀ ls ⊆ preamble ++ ["\x7b", "\x7d"], Opening (Plain p) (ls.map (0, ·)) [] := by
    refine fun ls hls => ⟨?_, List.forall_mem_map.mpr fun l hl => (hFixed l (hls hl)).2.1,
      fun _ => List.forall_mem_map.mpr fun l hl => (hFixed l (hls hl)).2.2⟩
    simpa using fun l hl => (hFixed l (hls hl)).1
  have hFields : Opening (Plain p) (((p.globals.map fun g => (g.name, g.ty)).map fieldLine).map (1, ·)) _ :=
    fields_opening fun hPlain => List.forall_mem_map.mpr (hNames hPlain).1
  have hAll := ((((hOuter preamble (by simp)).append (hOuter ["\x7b"] (by simp))).append hFields).append
    hOpening).append (hOuter ["\x7d"] (by simp))
  simp only [nil_append, append_nil] at hAll
  refine hAll.defines hOpens ?_
  have hBrace : ∀ brace, lines 0 [brace] = line 0 brace := by simp [lines]
  have hFieldLines : (p.globals.map fun g => (g.name, g.ty)).map fieldLine =
      p.globals.map fun g => s!".field public static {typeName g.ty} '{g.name}'" := map_map ..
  simp only [written_append, written_lines, hBrace, hFieldLines, ← hTexts, braced, cons_append,
    String.join_cons, String.join_append, String.append_assoc]

end Assembly

namespace EventKind

/-- Events of which one has a name that ends in the name of the other differ in their parameters. -/
theorem signatures_apart : ∀ a ∈ signatures, ∀ b ∈ signatures, a.1.toList <:+ b.1.toList →
    a.2.map Assembly.typeName = b.2.map Assembly.typeName → a = b := by
  decide +kernel

end EventKind

open Assembly (MethodHead)

namespace State

def handlers (st : State) : List Handler := st.events.filterMap id

def methodHead (st : State) (h : Handler) : MethodHead :=
  .ofTypes ("e" ++ st.name ++ h.name) (paramTypes h.params)

end State

def Function.methodHead (f : Function) : MethodHead := .ofTypes ("g" ++ f.name) (paramTypes f.params)

def Script.handlerHeads (s : Script) : List MethodHead :=
  (s.states.filterMap id).flatMap fun st => st.handlers.map st.methodHead

def Script.methodHeads (s : Script) : List MethodHead :=
  .ofTypes ".cctor" [] :: s.functions.map Function.methodHead ++ s.handlerHeads

/-- The name of the state and the event of a handler are known from its method. -/
theorem State.methodHead_inj {st st' : State} {h h' : Handler} (hKnown : h.Known) (hKnown' : h'.Known)
    (hSame : st.methodHead h = st'.methodHead h') : st.name = st'.name ∧ h.name = h'.name := by
  obtain ⟨kind, hKind, hParams⟩ := hKnown
  obtain ⟨kind', hKind', hParams'⟩ := hKnown'
  obtain ⟨hName, hTypes⟩ := MethodHead.mk.inj hSame
  rw [hParams, hParams'] at hTypes
  have hChars : st.name.toList ++ h.name.toList = st'.name.toList ++ h'.name.toList := by
    simpa using congrArg String.toList hName
  have hIn := (EventKind.name_of_ofName? hKind).2.1
  have hIn' := (EventKind.name_of_ofName? hKind').2.1
  have hEvent : h.name = h'.name := by
    rcases suffix_or_suffix_of_suffix ⟨_, hChars⟩ ⟨_, rfl⟩ with hEnd | hEnd
    · exact congrArg Prod.fst (EventKind.signatures_apart _ hIn _ hIn' hEnd hTypes)
    · exact congrArg Prod.fst (EventKind.signatures_apart _ hIn' _ hIn hEnd hTypes.symm).symm
  rw [hEvent] at hChars
  exact ⟨String.toList_inj.mp (append_cancel_right hChars), hEvent⟩

namespace Script

variable {s : Script}

theorem globalNames_sublist {name : Global → Option String}
    (h : ∀ g, (name g).toList.Sublist g.declares) :
    (s.globals.filterMap name).Sublist s.declares := by
  rw [filterMap_eq_flatMap_toList]
  exact (List.Sublist.flatMap_right _ fun g _ => h g).trans (sublist_append_left _ _)

theorem names_nodup (h : s.WellScoped visible) :
    (s.globalVars.map (·.name)).Nodup ∧ (s.functions.map (·.name)).Nodup ∧
      ((s.states.filterMap id).map (·.name)).Nodup := by
  rw [globalVars, functions, map_filterMap, map_filterMap, map_filterMap]
  refine ⟨(globalNames_sublist fun g => ?_).nodup h.1.1, (globalNames_sublist fun g => ?_).nodup h.1.1,
    (sublist_append_right _ _).nodup h.1.1⟩
  · cases g <;> simp [Global.declares]
  · cases g <;> simp [Global.declares]

theorem handlerHeads_nodup (hScoped : s.WellScoped visible) (hKnown : s.KnowsEvents) :
    s.handlerHeads.Nodup := by
  have hHandler : ∀ st ∈ s.states.filterMap id, ∀ h ∈ st.handlers, h.Known := fun st hst h hh =>
    hKnown st (by simpa using hst) h (by simpa [State.handlers] using hh)
  refine List.nodup_flatMap.mpr ⟨fun st hst => ?_, ?_⟩
  · have hNames : (st.handlers.map (·.name)).Nodup := by
      simpa [State.handlers, map_filterMap, State.declares] using (hScoped.2.2 st (by simpa using hst)).1
    exact List.pairwise_map.mpr ((List.pairwise_map.mp hNames).imp_of_mem fun ha hb hOther hSame =>
      hOther (State.methodHead_inj (hHandler st hst _ ha) (hHandler st hst _ hb) hSame).2)
  · refine (List.pairwise_map.mp (names_nodup hScoped).2.2).imp_of_mem fun ha hb hOther m hm hm' => ?_
    obtain ⟨h, hh, rfl⟩ := List.mem_map.mp hm
    obtain ⟨h', hh', hSame⟩ := List.mem_map.mp hm'
    exact hOther (State.methodHead_inj (hHandler _ hb _ hh') (hHandler _ ha _ hh) hSame).1.symm

theorem methodHeads_nodup (hScoped : s.WellScoped visible) (hKnown : s.KnowsEvents) :
    s.methodHeads.Nodup := by
  -- The first characters tell the constructor, the functions and the handlers apart.
  have hFunction : ∀ m ∈ s.functions.map Function.methodHead, m.name.toList.head? = some 'g' := by
    simp [Function.methodHead, MethodHead.ofTypes]
  have hHandler : ∀ m ∈ s.handlerHeads, m.name.toList.head? = some 'e' := by
    simp only [handlerHeads, mem_flatMap, mem_map]
    rintro _ ⟨st, _, h, _, rfl⟩
    simp [State.methodHead, MethodHead.ofTypes]
  refine List.nodup_append.mpr ⟨List.nodup_cons.mpr ⟨fun hMem => ?_, ?_⟩, handlerHeads_nodup hScoped
    hKnown, ?_⟩
  · cases hFunction _ hMem
  · refine List.pairwise_map.mpr ((List.pairwise_map.mp (names_nodup hScoped).2.1).imp fun hOther hSame =>
      hOther ?_)
    simpa [Function.methodHead, MethodHead.ofTypes] using congrArg MethodHead.name hSame
  · rintro m hm _ hm' rfl
    rcases List.mem_cons.mp hm with rfl | hm
    · cases hHandler _ hm'
    · cases (hFunction _ hm).symm.trans (hHandler _ hm')

theorem methodHeads_forget (k : Stage) (s : Script) : (s.forget k).methodHeads = s.methodHeads := by
  have hFunctions : (s.forget k).functions.map Function.methodHead = s.functions.map Function.methodHead := by
    simp only [functions, forget, map_filterMap, filterMap_map]
    refine filterMap_congr fun g _ => ?_
    cases g <;>
      simp [Global.forget, Function.forget, Function.methodHead, paramTypes, Param.forget, Function.comp_def]
  have hHead : ∀ (st : State) h, (st.forget k).methodHead (h.forget k) = st.methodHead h := by
    simp [State.methodHead, State.forget, Handler.forget, paramTypes, Param.forget, Function.comp_def]
  have hHandlers : ∀ st : State, (st.forget k).handlers = st.handlers.map (·.forget k) := by
    simp [State.handlers, State.forget, filterMap_map, map_filterMap]
  have hPresent : (s.forget k).states.filterMap id = (s.states.filterMap id).map (·.forget k) := by
    simp [forget, filterMap_map, map_filterMap]
  have hStates : (s.forget k).handlerHeads = s.handlerHeads := by
    simp only [handlerHeads, hPresent, flatMap_map, hHandlers, map_map, Function.comp_def, hHead]
  rw [methodHeads, methodHeads, hFunctions, hStates]

end Script

theorem StateCode.Implements.methodHeads {st : State} {c : StateCode}
    (h : c.Implements (fun r body => body.paramTypes = paramTypes r.params) (some st))
      (hOrderly : st.Orderly) :
    (c.events.map (Assembly.handlerHead c.name)).Perm (st.handlers.map st.methodHead) := by
  obtain ⟨_, hs, hSome, hName, hPerm, hEvents⟩ := h
  cases hSome
  have hHeads :
      hs.map (fun k => some (Assembly.handlerHead c.name k)) = st.events.map (Option.map st.methodHead) := by
    refine map_eq_of_forall₂ (forall₂_imp_mem hEvents fun _ hMem _ hk => ?_) fun _ _ => id
    obtain ⟨g, rfl, hKind, hParams⟩ := hk
    have hEvent :=
      (EventKind.name_of_ofName? (hOrderly.known g.name g.kind (List.mem_map.mpr ⟨_, hMem, rfl⟩))).1
    rw [Assembly.handlerHead, hName, hKind, hEvent, hParams]
    rfl
  have hSame : hs.map (Assembly.handlerHead c.name) = st.handlers.map st.methodHead := by
    simpa [State.handlers, filterMap_map, map_filterMap, Function.comp_def] using
      congrArg (List.filterMap id) hHeads
  exact (hPerm.map _).trans (.of_eq hSame)

theorem handlerHeads_perm {sts : List (Option State)} {cs : List StateCode}
    (h : Forall₂ (StateCode.Implements fun r body => body.paramTypes = paramTypes r.params) sts cs)
    (hOrderly : ∀ st, some st ∈ sts → st.Orderly) :
    (cs.flatMap fun c => c.events.map (Assembly.handlerHead c.name)).Perm
      ((sts.filterMap id).flatMap fun st => st.handlers.map st.methodHead) := by
  induction h with
  | nil => exact .refl _
  | @cons st c sts cs hState _ ih =>
    obtain ⟨t, hs, rfl, hRest⟩ := hState
    have hFirst := StateCode.Implements.methodHeads ⟨t, hs, rfl, hRest⟩ (hOrderly t (by simp))
    exact hFirst.append (ih fun t ht => hOrderly t (by simp [ht]))

theorem Program.Implements.methodHeads {s : Script}
    (h : p.Implements (fun r body => body.paramTypes = paramTypes r.params) s)
    (hOrderly : ∀ st, some st ∈ s.states → st.Orderly) : (Assembly.methodHeads p).Perm
      s.methodHeads := by
  have hFunctions : p.functions.map Assembly.functionHead = s.functions.map Function.methodHead :=
    map_eq_of_forall₂ h.functions fun f c ⟨hName, hParams⟩ => by
      rw [Assembly.functionHead, hName, hParams]
      rfl
  rw [Assembly.methodHeads, Script.methodHeads, hFunctions]
  exact (handlerHeads_perm h.states hOrderly).append_left _

namespace Session

variable {script : Script} {library : Library} {privileged : Bool} {s : Session}

end Session
end Lsl
