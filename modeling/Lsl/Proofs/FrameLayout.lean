import Lsl.Proofs.Backends

/-! The layout of frames. The variables of a body are counted when they are declared, listed when its code
is emitted, and looked up by their offset when it is written as text. The three agree: the variables stand
one after the other in the frame, none of them reaches into another, and the text of each access names the
variable to which the name in the source is bound. -/
namespace Lsl

open List

variable {vs : List (Slot × Symbol)} {t : Ty} {s : Symbol} {m : String}

/-- The variables of a routine with their symbols: the parameters in order, then the locals in the order
in which their declarations are met in the body. -/
def Routine.declarations (r : Routine) (b : Block) : List (Slot × Option Symbol) :=
  r.params.map (fun p => (⟨p.name, p.ty⟩, p.entry)) ++ (Stmt.partsAll b.stmts).filterMap Stmt.declaration?

/-- Variables that stand one after the other and fill a room. -/
def Consecutive (place : Symbol → Int) (start stop : Int) : List (Slot × Symbol) → Prop
  | [] => start = stop
  | (slot, s) :: vs => place s = start ∧ Consecutive place (start + slot.ty.size) stop vs

/-- Where a variable of a frame is found as argument or local. The first argument of a handler is the
script itself. -/
def Assembly.Place.ofVariable (isHandler : Bool) (params index : Nat) : Place :=
  if index < params then .arg (if isHandler then index + 1 else index) else .loc (index - params)

/-- The variable of a symbol is one of the frame, and the only one that is found at an offset. -/
def Body.Finds (body : Body) (frame : List (Slot × Symbol)) (s : Symbol) (offset : Int32) : Prop :=
  ∃ i slot, frame[i]? = some (slot, s) ∧ (∀ j other, frame[j]? = some (other, s) → j = i) ∧
    ∀ isHandler, Assembly.frameSlot isHandler body offset =
      .ok (.ofVariable isHandler body.params.length i, slot.ty)

/-- The agreement of a body of limited size about its frame, where `names` are the expressions of the
routine and `frame` its variables. -/
structure Body.Agrees (e : Surroundings) (names : List Expr) (frame : List (Slot × Symbol))
    (body : Body) : Prop where
  /-- The variables fill the room of parameters and locals. -/
  consecutive : Consecutive (fun s => (e.offset s).toInt) 0 (body.paramBytes + body.localBytes) frame
  /-- No variable reaches into a later one. -/
  disjoint : frame.Pairwise fun v w => (e.offset v.2).toInt + v.1.ty.size ≤ (e.offset w.2).toInt
  /-- Each name is found as the variable to which it is bound. -/
  named : ∀ v s, .ident v ∈ names → v.entry = some s → s.kind ≠ .global →
    body.Finds frame s (e.offset s)
  /-- What pushes a variable of the frame does so for a name. -/
  pushes : ∀ t o m, .pushLocal t o m ∈ body.code → ∃ v s, .ident v ∈ names ∧ v.entry = some s ∧
    e.load v = .ok [.pushLocal t o m] ∧ o = e.offset s ∧ body.Finds frame s o
  /-- What stores in a variable of the frame does so for a name or at the declaration of a local. -/
  stores : ∀ t o m keep, .store false t o m keep ∈ body.code →
    (∃ v s, .ident v ∈ names ∧ v.entry = some s ∧ e.store v keep = .ok [.store false t o m keep] ∧
      o = e.offset s ∧ body.Finds frame s o) ∨
    ∃ slot s, (slot, s) ∈ frame.drop body.params.length ∧ t = slot.ty ∧ o = e.offset s ∧ m = "" ∧
      body.Finds frame s o

/-- The layout of the frame of a routine in its body. -/
structure Routine.LaidOut (outer : Surroundings) (r : Routine) (body : Body) : Prop where
  /-- All room for locals, and nothing else, is made when the body is entered. -/
  enters : ∃ rest, body.code = .enterFrame body.localBytes :: rest ∧ ∀ n, .enterFrame n ∉ rest
  /-- The body lists the variables of the routine, each of which has a symbol of its own. -/
  frame : ∃ sym b frame, r.entry = some sym ∧ r.body = some b ∧
    r.declarations b = frame.map (fun v => (v.1, some v.2)) ∧
    body.params = (frame.take r.params.length).map Prod.fst ∧
    body.locals = (frame.drop r.params.length).map Prod.fst ∧
    (∀ v ∈ frame, 0 < v.1.ty.size) ∧
    (body.paramBytes + body.localBytes < 2 ^ 31 →
      body.Agrees (outer.enter r.result sym r.params b) (Stmt.exprsAll b.stmts) frame)

/-- The offset of a variable lies within its frame. -/
theorem slotOffset_le (ts : List Ty) (i : Nat) : slotOffset ts i ≤ Ty.frameSize ts := by
  conv => rhs; rw [← take_append_drop i ts, Ty.frameSize_append]
  exact Nat.le_add_right _ _

theorem slotOffset_succ (t : Ty) (ts : List Ty) (i : Nat) :
    slotOffset (t :: ts) (i + 1) = t.size + slotOffset ts i := rfl

/-- Variables at the offsets of a frame stand one after the other. -/
theorem Consecutive.of_offsets {place : Symbol → Int} {vs : List (Slot × Symbol)} {start : Nat}
    (h : ∀ i v, vs[i]? = some v → place v.2 = start + slotOffset (vs.map (·.1.ty)) i) :
    Consecutive place start (start + Ty.frameSize (vs.map (·.1.ty)) : Nat) vs := by
  induction vs generalizing start with
  | nil => rfl
  | cons v vs ih =>
    refine ⟨h 0 v rfl, ?_⟩
    have hRest : Consecutive place (start + v.1.ty.size : Nat)
        (start + v.1.ty.size + Ty.frameSize (vs.map (·.1.ty)) : Nat) vs := by
      apply ih
      intro i w hw
      rw [h (i + 1) w hw, map_cons, slotOffset_succ]
      omega
    rw [map_cons, Ty.frameSize, ← Nat.add_assoc]
    exact_mod_cast hRest

/-- What stands after a place starts there or later. -/
theorem Consecutive.start_le {place : Symbol → Int} {start stop : Int}
    (h : Consecutive place start stop vs) :
    ∀ w ∈ vs, start ≤ place w.2 := by
  induction vs generalizing start with
  | nil => simp
  | cons v vs ih =>
    intro w hw
    rcases List.mem_cons.mp hw with rfl | hw
    · exact h.1.ge
    · have hLater := ih h.2 w hw
      omega

theorem Consecutive.pairwise {place : Symbol → Int} {start stop : Int}
    (h : Consecutive place start stop vs) :
    vs.Pairwise fun v w => place v.2 + v.1.ty.size ≤ place w.2 := by
  induction vs generalizing start with
  | nil => exact .nil
  | cons v vs ih =>
    refine .cons (fun w hw => ?_) (ih h.2)
    rw [h.1]
    exact h.2.start_le w hw

namespace Assembly

theorem ofNat_eq_iff {m n : Nat} (hm : m < 2 ^ 31) (hn : n < 2 ^ 31) :
    Int32.ofNat m = Int32.ofNat n ↔ m = n := by
  constructor
  · intro h
    have hInt := congrArg Int32.toInt h
    rw [Int32.toInt_ofNat_of_lt hm, Int32.toInt_ofNat_of_lt hn] at hInt
    exact Int.ofNat.inj hInt
  · exact congrArg _

variable {ts : List Ty} {start place : Nat}

/-- The lookup finds the slot that starts at an offset. -/
theorem findSlot_eq {i : Nat} {t : Ty} (hSizes : ∀ t ∈ ts, 0 < t.size)
    (hRoom : start + Ty.frameSize ts < 2 ^ 31) (h : ts[i]? = some t) :
    findSlot (Int32.ofNat (start + slotOffset ts i)) start place ts = some (place + i, t) := by
  induction ts generalizing i start place with
  | nil => cases h
  | cons u ts ih =>
    rw [Ty.frameSize] at hRoom
    cases i with
    | zero =>
      cases h
      exact if_pos rfl
    | succ i =>
      have hFirst : 0 < u.size := hSizes u (by simp)
      have hWithin := slotOffset_le ts i
      have hNext : start + slotOffset (u :: ts) (i + 1) = start + u.size + slotOffset ts i := by
        rw [slotOffset_succ, Nat.add_assoc]
      have hLater : Int32.ofNat start ≠ Int32.ofNat (start + u.size + slotOffset ts i) := by
        rw [Ne, ofNat_eq_iff (by omega) (by omega)]
        omega
      have hRest := @ih (start + u.size) (place + 1) i (fun t ht => hSizes t (by simp [ht]))
        (by omega) h
      rw [hNext, findSlot, if_neg hLater, hRest]
      simp only [Option.some.injEq, Prod.mk.injEq, and_true]
      omega

/-- The lookup finds nothing behind the last slot. -/
theorem findSlot_eq_none {offset : Nat} (hSizes : ∀ t ∈ ts, 0 < t.size) (hRoom : offset < 2 ^ 31)
    (h : start + Ty.frameSize ts ≤ offset) : findSlot (Int32.ofNat offset) start place ts = none := by
  induction ts generalizing start place with
  | nil => rfl
  | cons u ts ih =>
    rw [Ty.frameSize] at h
    have hFirst : 0 < u.size := hSizes u (by simp)
    have hLater : Int32.ofNat start ≠ Int32.ofNat offset := by
      rw [Ne, ofNat_eq_iff (by omega) hRoom]
      omega
    rw [findSlot, if_neg hLater]
    exact ih (fun t ht => hSizes t (by simp [ht])) (by omega)

/-- Each variable of a frame is found at its offset, with its number and type. -/
theorem frameSlot_eq {b : Body} {i : Nat} (hSizes : ∀ t ∈ b.paramTypes ++ b.localTypes, 0 < t.size)
    (hRoom : b.paramBytes + b.localBytes < 2 ^ 31) (h : (b.paramTypes ++ b.localTypes)[i]? = some t)
    (isHandler : Bool) :
    frameSlot isHandler b (Int32.ofNat (slotOffset (b.paramTypes ++ b.localTypes) i)) =
      .ok (.ofVariable isHandler b.params.length i, t) := by
  have hCount : b.paramTypes.length = b.params.length := length_map ..
  have hParams : ∀ t ∈ b.paramTypes, 0 < t.size := fun t ht => hSizes t (by simp [ht])
  have hLocals : ∀ t ∈ b.localTypes, 0 < t.size := fun t ht => hSizes t (by simp [ht])
  unfold Place.ofVariable
  by_cases hParam : i < b.paramTypes.length
  · rw [List.getElem?_append_left hParam] at h
    have hRoom : 0 + Ty.frameSize b.paramTypes < 2 ^ 31 := by
      unfold Body.paramBytes at hRoom
      omega
    rw [frameSlot, (slotOffset_append ..).1 hParam, findSlot_eq hParams hRoom h, if_pos (hCount ▸ hParam)]
    simp only [Nat.zero_add]
  · rw [List.getElem?_append_right (Nat.le_of_not_lt hParam)] at h
    have hWithin : slotOffset b.localTypes (i - b.paramTypes.length) ≤ b.localBytes := slotOffset_le _ _
    have hBefore : findSlot (Int32.ofNat (b.paramBytes + slotOffset b.localTypes (i - b.paramTypes.length)))
        0 0 b.paramTypes = none :=
      findSlot_eq_none hParams (by omega) (by unfold Body.paramBytes; omega)
    have hHere := @findSlot_eq b.localTypes b.paramBytes 0 _ t hLocals hRoom h
    rw [frameSlot, (slotOffset_append ..).2 hParam, ← Body.paramBytes, hBefore, hHere,
      if_neg (hCount ▸ hParam)]
    simp only [Nat.zero_add, hCount]

end Assembly

theorem Stmt.placeAll_eq {ss : List Stmt} (ih : ∀ s ∈ ss, ∀ f, s.place f =
    (s.parts.filterMap declaration?).foldl .add f) (f : Placing) :
    placeAll f ss = ((partsAll ss).filterMap declaration?).foldl .add f := by
  induction ss generalizing f with
  | nil => rfl
  | cons s ss ihList =>
    rw [placeAll, partsAll, filterMap_append, foldl_append, ih s (by simp),
      ihList fun t ht => ih t (by simp [ht])]

/-- The walk over a statement places its declarations one by one. -/
theorem Stmt.place_eq (s : Stmt) (f : Placing) :
    s.place f = (s.parts.filterMap declaration?).foldl .add f := by
  induction s generalizing f with
  | block p scope ss ih => exact placeAll_eq ih f
  | ifThen p c ts t es e iht ihe => simp [parts, place, filterMap_cons, declaration?, iht, ihe]
  | whileLoop p c bs b ih | doWhile p bs b c ih | forLoop p init c step bs b ih => exact ih f
  | _ => rfl

/-- Variables that are placed one after the other get the offsets of their frame. -/
theorem Placing.foldl_add (vs : List (Slot × Option Symbol)) (f : Placing) :
    vs.foldl add f = ⟨f.size + Ty.frameSize (vs.map (·.1.ty)),
      f.places ++ vs.mapIdx fun i v => (v, f.size + slotOffset (vs.map (·.1.ty)) i)⟩ := by
  induction vs generalizing f with
  | nil => simp [Ty.frameSize]
  | cons v vs ih =>
    rw [foldl_cons, ih, add]
    simp [Ty.frameSize, slotOffset, Nat.add_assoc]

theorem exists_symbols {vs : List (Slot × Option Symbol)} (h : ∀ v ∈ vs, ∃ s, v.2 = some s) :
    ∃ frame : List (Slot × Symbol), vs = frame.map fun v => (v.1, some v.2) := by
  induction vs with
  | nil => exact ⟨[], rfl⟩
  | cons v vs ih =>
    obtain ⟨s, hs⟩ := h v (by simp)
    obtain ⟨frame, rfl⟩ := ih fun w hw => h w (by simp [hw])
    exact ⟨(v.1, s) :: frame, by rw [map_cons, ← hs]⟩

namespace Routine

theorem declarations_slots (r : Routine) (b : Block) :
    (r.declarations b).map Prod.fst = paramSlots r.params ++ Stmt.localsAll b.stmts := by
  rw [declarations, map_append, Stmt.declarationsAll_slots fun s _ => s.declarations_slots,
    map_map]
  rfl

theorem declarations_notes (r : Routine) (b : Block) : (r.declarations b).map (fun v => (v.1.ty, v.2)) =
    slotsIn (paramNotes r.params ++ Stmt.notesAll b.stmts) := by
  rw [declarations, map_append, Stmt.declarationsAll_notes fun s _ => s.declarations_notes,
    slotsIn_append, slotsIn_paramNotes, map_map]
  rfl

theorem placeBody_eq (r : Routine) (b : Block) :
    placeBody r.params b = (r.declarations b).foldl .add {} := by
  rw [placeBody, Stmt.placeAll_eq fun s _ => s.place_eq, declarations, foldl_append, foldl_map]

/-- A frame of a routine: its variables with their symbols, which are numbered in order. -/
structure HasFrame (round : Nat) (r : Routine) (b : Block) (frame : List (Slot × Symbol)) : Prop where
  declared : r.declarations b = frame.map fun v => (v.1, some v.2)
  index : ∀ (i : Nat) (v : Slot × Symbol), frame[i]? = some v → v.2.index = i
  kind : ∀ v ∈ frame, v.2.kind = .local
  round : ∀ v ∈ frame, v.2.round = round

/-- A sound routine has a frame. -/
theorem Sound.hasFrame {Top : Symbol → Prop} {round : Nat} {r : Routine} {b : Block}
    (h : r.Sound Top round b) : ∃ frame, r.HasFrame round b frame := by
  have hMade : ∀ v ∈ r.declarations b, ∃ s, v.2 = some s ∧ s.kind = .local ∧ s.round = round := by
    intro v hv
    have hNote : .declares .local v.1.ty v.2 ∈ paramNotes r.params ++ Stmt.notesAll b.stmts := by
      rw [← mem_slotsIn, ← declarations_notes]
      exact mem_map_of_mem hv
    obtain ⟨s, hs, hKind, _, hRound⟩ := h.made _ _ _ hNote
    exact ⟨s, hs, hKind, hRound⟩
  obtain ⟨frame, hFrame⟩ := exists_symbols fun v hv => (hMade v hv).imp fun _ hs => hs.1
  have hOwn : ∀ v ∈ frame, v.2.kind = .local ∧ v.2.round = round := by
    intro v hv
    obtain ⟨s, hs, hRest⟩ := hMade (v.1, some v.2) (by rw [hFrame]; exact mem_map_of_mem hv)
    cases hs
    exact hRest
  refine ⟨frame, hFrame, fun i v hi => ?_, fun v hv => (hOwn v hv).1, fun v hv => (hOwn v hv).2⟩
  apply h.ordered i v.1.ty
  rw [← declarations_notes, hFrame, map_map, List.getElem?_map, hi]
  rfl

namespace HasFrame

variable {round : Nat} {r : Routine} {b : Block} {frame : List (Slot × Symbol)}

theorem slots (h : r.HasFrame round b frame) :
    frame.map Prod.fst = paramSlots r.params ++ Stmt.localsAll b.stmts := by
  rw [← declarations_slots, h.declared, map_map]
  rfl

theorem params (h : r.HasFrame round b frame) :
    paramSlots r.params = (frame.take r.params.length).map Prod.fst := by
  have hCount : r.params.length = (paramSlots r.params).length := by simp [paramSlots]
  rw [map_take, h.slots, hCount, take_left]

theorem locals (h : r.HasFrame round b frame) :
    Stmt.localsAll b.stmts = (frame.drop r.params.length).map Prod.fst := by
  have hCount : r.params.length = (paramSlots r.params).length := by simp [paramSlots]
  rw [map_drop, h.slots, hCount, drop_left]

theorem types (h : r.HasFrame round b frame) : frame.map (·.1.ty) = frameTypes r.params b := by
  have hTypes := congrArg (List.map Slot.ty) h.slots
  rw [map_map, map_append, paramSlots, map_map] at hTypes
  exact hTypes

/-- A variable with a place stands at the offset of its number. -/
theorem offset (h : r.HasFrame round b frame) {e : Surroundings} (hPlaced : e.placed.contains round = true)
    (hFrame : e.frame = frameTypes r.params b) {i : Nat} {v : Slot × Symbol} (hi : frame[i]? = some v) :
    e.offset v.2 = Int32.ofNat (slotOffset (frame.map (·.1.ty)) i) := by
  have hMem := mem_of_getElem? hi
  have hHere : e.placed.contains v.2.round = true := by rw [h.round v hMem, hPlaced]
  have hKind : v.2.kind ≠ .global := by simp [h.kind v hMem]
  rw [Surroundings.offset, hHere, if_neg hKind, h.index i v hi, hFrame, h.types]
  rfl

/-- The walk over a body gives its variables the offsets at which its code finds them. -/
theorem places (h : r.HasFrame round b frame) {e : Surroundings} (hPlaced : e.placed.contains round = true)
    (hFrame : e.frame = frameTypes r.params b) :
    (placeBody r.params b).size = Ty.frameSize e.frame ∧
    (placeBody r.params b).places.map (fun v => (v.1, Int32.ofNat v.2)) =
      (r.declarations b).map fun v => (v, v.2.elim 0 e.offset) := by
  rw [placeBody_eq, Placing.foldl_add, h.declared, hFrame, ← h.types, map_map]
  refine ⟨Nat.zero_add _, List.ext_getElem? fun i => ?_⟩
  cases hi : frame[i]? with
  | none => simp [hi]
  | some v => simp [hi, h.offset hPlaced hFrame hi, Function.comp_def]

/-- The declaration of a local gives one of the variables behind the parameters. -/
theorem mem_locals (h : r.HasFrame round b frame) {t : Stmt} {slot : Slot} (ht : t ∈ Stmt.partsAll b.stmts)
    (hDeclares : t.declaration? = some (slot, some s)) :
    (slot, s) ∈ frame.drop r.params.length := by
  have hDeclared := congrArg (List.drop r.params.length) h.declared
  rw [declarations, drop_left' (by simp), ← map_drop] at hDeclared
  have hMem : (slot, some s) ∈ (Stmt.partsAll b.stmts).filterMap Stmt.declaration? :=
    List.mem_filterMap.mpr ⟨t, ht, hDeclares⟩
  rw [hDeclared, mem_map] at hMem
  obtain ⟨v, hv, hEq⟩ := hMem
  cases hEq
  exact hv

end HasFrame

variable {visible : List LibraryFunction} {script : Script} {round : Nat} {r : Routine} {b : Block}
  {frame : List (Slot × Symbol)}

/-- A name in a sound routine that is not bound to a global is bound to one of its variables. -/
theorem Sound.framed (h : r.Sound (script.Offers visible round) round b) (hFrame : r.HasFrame round b frame)
    {v : Ident} (hName : .ident v ∈ Stmt.exprsAll b.stmts) (hEntry : v.entry = some s)
    (hKind : s.kind ≠ .global) : ∃ slot, (slot, s) ∈ frame := by
  obtain ⟨t, ht, hName⟩ := Stmt.mem_exprsAll.mp hName
  have hNote : .uses .local v.entry ∈ t.notes := (Stmt.of_mem_exprs hName).2.2 (by simp [Expr.notes])
  rw [hEntry] at hNote
  obtain ⟨_, hSome, hServes, hFrom⟩ := h.used _ _ (Stmt.mem_notesAll.mpr ⟨t, ht, hNote⟩)
  cases hSome
  rcases hFrom with hTop | hDeclared
  · cases hTop with
    | globalVar i v hMem => exact absurd rfl hKind
    | event sym hEvent => rw [hEvent] at hServes; cases hServes
    | _ => cases hServes
  · obtain ⟨kind, ty, hMem⟩ := mem_declaredIn.mp hDeclared
    obtain ⟨_, hSome, hMade, _⟩ := h.made kind ty _ hMem
    cases hSome
    rcases declares_of_mem_frame hMem with rfl | ⟨rfl, _⟩
    · rw [hMade] at hServes
      cases hServes
    · have hSlot := mem_slotsIn.mpr hMem
      rw [← declarations_notes, hFrame.declared, map_map, mem_map] at hSlot
      obtain ⟨⟨slot, _⟩, hv, hEq⟩ := hSlot
      cases hEq
      exact ⟨slot, hv⟩

end Routine

namespace Arises

variable {e : Surroundings} {Exprs : Expr → Prop} {Stmts : Stmt → Prop} {c : List Instr}

theorem not_enterFrame (h : Arises e Exprs Stmts c) (n : Int) : .enterFrame n ∉ c := by
  intro hMem
  generalize hi : Instr.enterFrame n = i at hMem
  cases h i hMem with
  | load =>
    unfold Surroundings.loadInstr at hi
    split at hi
    · cases hi
    · cases hi
  | control _ hNone | plain hNone =>
    subst hi
    cases hNone
  | _ => cases hi

theorem pushLocal (h : Arises e Exprs Stmts c) {o : Int32} (hMem : .pushLocal t o m ∈ c) :
    ∃ v s, Exprs (.ident v) ∧ v.entry = some s ∧ s.kind ≠ .global ∧
      e.loadInstr v s = .pushLocal t o m ∧ o = e.offset s := by
  generalize hi : Instr.pushLocal t o m = i at hMem
  cases h i hMem with
  | @load v s hName hEntry =>
    have hLoad := hi
    unfold Surroundings.loadInstr at hLoad
    split at hLoad
    · cases hLoad
    · next hKind =>
      cases hLoad
      exact ⟨v, s, hName, hEntry, hKind, rfl, rfl⟩
  | control _ hNone | plain hNone =>
    subst hi
    cases hNone
  | _ => cases hi

theorem storeLocal (h : Arises e Exprs Stmts c) {o : Int32} {keep : Bool}
    (hMem : .store false t o m keep ∈ c) :
    (∃ v s, Exprs (.ident v) ∧ v.entry = some s ∧ s.kind ≠ .global ∧
      e.storeInstr v s keep = .store false t o m keep ∧ o = e.offset s) ∨
    ∃ p name x s, Stmts (.decl p name t x (some s)) ∧ o = e.offset s ∧ m = "" := by
  generalize hi : Instr.store false t o m keep = i at hMem
  cases h i hMem with
  | load =>
    unfold Surroundings.loadInstr at hi
    split at hi
    · cases hi
    · cases hi
  | @store v s keep' hName hEntry =>
    have hStore := hi
    unfold Surroundings.storeInstr at hStore
    injection hStore with hGlobal _ hOffset _ hKeep
    subst hKeep
    exact .inl ⟨v, s, hName, hEntry, by simpa using hGlobal, rfl, hOffset⟩
  | @initial p name ty x s hStmt =>
    cases hi
    exact .inr ⟨p, name, x, s, hStmt, rfl, rfl⟩
  | control _ hNone | plain hNone =>
    subst hi
    cases hNone
  | _ => cases hi

end Arises

namespace Routine

variable {visible : List LibraryFunction} {script : Script} {round : Nat} {r : Routine} {b : Block}
  {frame : List (Slot × Symbol)} {e : Surroundings} {body : Body}

namespace HasFrame

variable (h : r.HasFrame round b frame) (hPlaced : e.placed.contains round = true)
  (hFrame : e.frame = frameTypes r.params b) (hSizes : ∀ v ∈ frame, 0 < v.1.ty.size)
  (hTypes : body.paramTypes ++ body.localTypes = frame.map (·.1.ty))
  (hRoom : body.paramBytes + body.localBytes < 2 ^ 31)

include h hPlaced hFrame hTypes hRoom

/-- The variables of a frame fill its room one after the other. -/
theorem consecutive :
    Consecutive (fun s => (e.offset s).toInt) 0 (body.paramBytes + body.localBytes) frame := by
  have hBytes : body.paramBytes + body.localBytes = Ty.frameSize (frame.map (·.1.ty)) := by
    rw [← hTypes, Ty.frameSize_append]
    rfl
  have hOffsets : ∀ i v, frame[i]? = some v →
      (e.offset v.2).toInt = (0 : Nat) + slotOffset (frame.map (·.1.ty)) i := by
    intro i v hi
    have hWithin := slotOffset_le (frame.map (·.1.ty)) i
    rw [h.offset hPlaced hFrame hi, Int32.toInt_ofNat_of_lt (by omega)]
    simp
  have hWhole := @Consecutive.of_offsets (fun s => (e.offset s).toInt) frame 0 hOffsets
  rw [← Int.natCast_add, hBytes]
  simpa using hWhole

include hSizes

/-- The lookup of the text finds each variable of a frame at its offset. -/
theorem finds {slot : Slot} {s : Symbol} (hMem : (slot, s) ∈ frame) : body.Finds frame s (e.offset s) := by
  obtain ⟨i, hi⟩ := mem_iff_getElem?.mp hMem
  refine ⟨i, slot, hi, fun j other hj => ?_, fun isHandler => ?_⟩
  · exact (h.index j (other, s) hj).symm.trans (h.index i (slot, s) hi)
  · have hOffset := h.offset hPlaced hFrame hi
    rw [hOffset, ← hTypes]
    apply Assembly.frameSlot_eq _ hRoom
    · rw [hTypes, List.getElem?_map, hi]
      rfl
    · rw [hTypes]
      intro t ht
      obtain ⟨v, hv, rfl⟩ := List.mem_map.mp ht
      exact hSizes v hv

end HasFrame

/-- The frame of a sound routine whose variables have types of values is laid out in its body. -/
theorem Sound.laidOut {outer : Surroundings} (h : r.Sound (script.Offers visible round) round b)
    (hBlock : r.body = some b) (hPlaced : outer.placed.contains round = true)
    (hValues : ∀ t ∈ frameTypes r.params b, t.isValue = true) (hEmits : r.Emits outer body) :
    r.LaidOut outer body := by
  obtain ⟨sym, l, l', c, hEntry, _, _, hCode, hBody⟩ := h.emits hBlock hEmits
  obtain ⟨frame, hFrame⟩ := h.hasFrame
  obtain ⟨rest, hFinish, hArises⟩ := h.arises hCode (Ty.frameSize ((Stmt.localsAll b.stmts).map (·.ty)))
  have hEnters : body.code = .enterFrame body.localBytes :: rest := by
    rw [hBody]
    exact hFinish
  have hSizes : ∀ v ∈ frame, 0 < v.1.ty.size := by
    intro v hv
    apply Ty.size_pos
    apply hValues
    rw [← hFrame.types]
    exact mem_map_of_mem hv
  have hTypes : body.paramTypes ++ body.localTypes = frame.map (·.1.ty) := by
    rw [hFrame.types, hBody]
    simp [Body.paramTypes, Body.localTypes, frameTypes, paramSlots, paramTypes]
  have hParams : body.params = (frame.take r.params.length).map Prod.fst := by
    rw [hBody]
    exact hFrame.params
  have hLocals : body.locals = (frame.drop r.params.length).map Prod.fst := by
    rw [hBody]
    exact hFrame.locals
  refine ⟨⟨rest, hEnters, hArises.not_enterFrame⟩, sym, b, frame, hEntry, hBlock, hFrame.declared,
    hParams, hLocals, hSizes, fun hRoom => ?_⟩
  let e := outer.enter r.result sym r.params b
  have hFinds : ∀ {slot s}, (slot, s) ∈ frame → body.Finds frame s (e.offset s) :=
    @HasFrame.finds _ _ _ _ e _ hFrame hPlaced rfl hSizes hTypes hRoom
  have hNamed : ∀ v s, .ident v ∈ Stmt.exprsAll b.stmts → v.entry = some s → s.kind ≠ .global →
      body.Finds frame s (e.offset s) := by
    intro v s hName hs hKind
    obtain ⟨slot, hMem⟩ := h.framed hFrame hName hs hKind
    exact hFinds hMem
  have hConsecutive := @HasFrame.consecutive _ _ _ _ e _ hFrame hPlaced rfl hTypes hRoom
  refine ⟨hConsecutive, hConsecutive.pairwise, hNamed, fun t o m hPush => ?_, fun t o m keep hStore => ?_⟩
  · have hMem : .pushLocal t o m ∈ rest := by simpa [hEnters] using hPush
    obtain ⟨v, s, hName, hs, hKind, hLoad, rfl⟩ := hArises.pushLocal hMem
    exact ⟨v, s, hName, hs, by rw [Surroundings.load_eq hs, hLoad], rfl, hNamed v s hName hs hKind⟩
  · have hMem : .store false t o m keep ∈ rest := by simpa [hEnters] using hStore
    rcases hArises.storeLocal hMem with ⟨v, s, hName, hs, hKind, hInstr, rfl⟩ |
      ⟨p, name, x, s, hDecl, rfl, rfl⟩
    · exact .inl ⟨v, s, hName, hs,
        by rw [Surroundings.store_eq hs, hInstr], rfl, hNamed v s hName hs hKind⟩
    · have hLocal : (⟨name, t⟩, s) ∈ frame.drop body.params.length := by
        have hCount : body.params.length = r.params.length := by simp [hBody, paramSlots]
        rw [hCount]
        exact hFrame.mem_locals (by simpa [Stmt.parts] using hDecl) rfl
      exact .inr ⟨⟨name, t⟩, s, hLocal, rfl, rfl, rfl, hFinds (mem_of_mem_drop hLocal)⟩

end Routine

/-- In a script without errors, the walk over each body gives the room of its frame and the offsets that
its code uses. -/
theorem Session.Accepted.places {script : Script} {library : Library} {privileged : Bool} {s : Session}
    (h : Accepted script library privileged s) {r : Routine} (hr : r ∈ s.script.routines) :
    ∃ sym b, r.entry = some sym ∧ r.body = some b ∧
      (placeBody r.params b).size = Ty.frameSize (frameTypes r.params b) ∧
      (placeBody r.params b).places.map (fun v => (v.1, Int32.ofNat v.2)) = (r.declarations b).map
        fun v => (v, v.2.elim 0 (s.surroundings.enter r.result sym r.params b).offset) := by
  obtain ⟨_, _, hAnalyzed⟩ := h.routines r hr
  obtain ⟨_, b, _, hb, _, hSound⟩ := hAnalyzed.body
  obtain ⟨sym, hSym, _⟩ := hSound.entry
  obtain ⟨frame, hFrame⟩ := hSound.hasFrame
  let e := s.surroundings.enter r.result sym r.params b
  have hPlaced : e.placed.contains 1 = true := h.contains_placed
  exact ⟨sym, b, hSym, hb, hFrame.places hPlaced rfl⟩

/-- In the program of a script without errors, whose variables in functions and handlers have types of
values, all frames are laid out. -/
theorem Session.emit_laidOut {script : Script} {library : Library} {privileged : Bool} {s : Session}
    (hValues : ∀ r ∈ script.routines, ∀ b ∈ r.body, ∀ t ∈ frameTypes r.params b, t.isValue = true)
    (hAnalyze : (Session.start script library privileged).analyze = .ok s) (hFailed : s.failed = false) :
    ∃ s' p, s.emit = .ok (s', some p) ∧ p.Implements (Routine.LaidOut s.surroundings) s.script := by
  have hAccepted := Session.analyze_accepted hAnalyze hFailed
  refine hAccepted.emits_all fun r₀ hr₀ r body hAnalyzed hEmits => ?_
  obtain ⟨b₀, b, hBlock₀, hBlock, hLocals, hSound⟩ := hAnalyzed.body
  have hPlaced : s.surroundings.placed.contains 1 = true := hAccepted.contains_placed
  have hTypes : frameTypes r.params b = frameTypes r₀.params b₀ := by
    rw [frameTypes, frameTypes, hAnalyzed.params, hLocals]
  refine hSound.laidOut hBlock hPlaced ?_ hEmits
  rw [hTypes]
  exact hValues r₀ hr₀ b₀ hBlock₀

/-- The frames of the script of the example are laid out. -/
theorem Session.emit_laidOut_sample :
    (∀ r ∈ Script.sample.routines, ∀ b ∈ r.body, ∀ t ∈ frameTypes r.params b,
      t.isValue = true) ∧
      ∃ s, (Session.start .sample ⟨[]⟩ false).analyze = .ok s ∧ s.failed = false ∧
        ∃ s' p, s.emit = .ok (s', some p) ∧ p.Implements (Routine.LaidOut s.surroundings) s.script := by
  have hValues : ∀ r ∈ Script.sample.routines, ∀ b ∈ r.body, ∀ t ∈ frameTypes r.params b,
      t.isValue = true := by decide
  obtain ⟨s, hAnalyze, hFailed⟩ := Session.sample_analyzes
  exact ⟨hValues, s, hAnalyze, hFailed, Session.emit_laidOut hValues hAnalyze hFailed⟩

end Lsl
