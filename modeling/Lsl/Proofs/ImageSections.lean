import Lsl.Proofs.ImageAccess
import Lsl.Proofs.StackTyping
import Mathlib.Data.List.Sort
import Mathlib.Data.List.TakeWhile

/-! The functions and states of an image. Tables tell where their entries start, and an entry ends
where the next one starts or where the section ends; so the code that is read for a function or a
handler is the code that was written for it. -/
namespace Lsl

open List

variable {pos offset : Int} {ts : List Ty} {bytes : Bytes}

variable {s : StateCode} {i : Nat} {e out : Bytes} {f : FunctionCode} {fs : List FunctionCode}
  {ss : List StateCode}

theorem Text.length_bytes (s : String) : (Text.bytes s).length = s.utf8ByteSize := by
  rw [← String.size_toByteArray]
  simp [Text.bytes, ← String.utf8Encode_toList, List.utf8Encode]

theorem Text.bytes_inj {s t : String} : Text.bytes s = Text.bytes t ↔ s = t := by
  constructor
  · intro h
    rw [← String.toByteArray_inj, ← String.utf8Encode_toList, ← String.utf8Encode_toList]
    exact congrArg List.toByteArray h
  · exact congrArg _

theorem Ty.ofTag_ofNat (t : Ty) : ofTag (UInt8.ofNat t.tag).toNat = t := by
  cases t with
  | unknown n =>
    have hRange : n.val + 8 < 256 := by omega
    have hTag : (UInt8.ofNat (n.val + 8)).toNat = n.val + 8 := by
      rw [UInt8.toNat_ofNat', Nat.mod_eq_of_lt hRange]
    rw [tag, hTag, ofTag, Nat.mod_eq_of_lt hRange]
    exact congrArg Ty.unknown (Fin.ofNat_val_eq_self n)
  | _ => rfl

namespace Image

variable {data : Array UInt8} {start stop : Int}

/-- Types other than `void` are marked by bytes other than the zero that ends them. -/
theorem typesFrom_eq (h : Holds data pos (ts.map (fun t => UInt8.ofNat t.tag) ++ [0]))
    (hts : ∀ t ∈ ts, t ≠ .void) : typesFrom data pos = ts := by
  have hNonzero : 0 ∉ ts.map fun t => UInt8.ofNat t.tag := by
    intro hMem
    obtain ⟨t, ht, hTag⟩ := List.mem_map.mp hMem
    have hVoid : t = .void := by rw [← t.ofTag_ofNat, hTag]; rfl
    exact hts t ht hVoid
  rw [typesFrom, (h.takeWhile hNonzero).1, map_map]
  exact (map_congr_left fun t _ => t.ofTag_ofNat).trans (map_id ts)

/-- The types of a list are read up to the first `void` among them. -/
theorem typesFrom_eq_takeWhile (h : Holds data pos (ts.map (fun t => UInt8.ofNat t.tag) ++ [0])) :
    typesFrom data pos = ts.takeWhile (· != .void) := by
  refine typesFrom_eq ?_ fun t ht => by simpa using mem_takeWhile_imp ht
  rw [← ts.takeWhile_append_dropWhile (p := (· != .void)), map_append, append_assoc] at h
  cases hRest : ts.dropWhile (· != .void) with
  | nil => simpa [hRest] using h
  | cons t rest =>
    have hStop := @List.head_dropWhile_not _ (· != .void) ts (by rw [hRest]; simp)
    simp only [hRest, head_cons, bne_eq_false_iff_eq] at hStop
    rw [hRest, hStop, map_cons, cons_append, append_cons] at h
    exact h.left

@[simp] theorem length_starts (o : Nat) (es : List Bytes) : (starts o es).length = es.length := by
  induction es generalizing o with
  | nil => rfl
  | cons e es ih => rw [starts, length_cons, ih, length_cons]

theorem getElem_starts (o : Nat) (es : List Bytes) (hi : i < (starts o es).length) :
    (starts o es)[i] = o + (es.take i).flatten.length := by
  induction es generalizing o i with
  | nil => cases hi
  | cons e es ih =>
    cases i with
    | zero => simp [starts]
    | succ i =>
      simp only [starts, getElem_cons_succ, take_succ_cons, flatten_cons,
        length_append]
      rw [ih, Nat.add_assoc]

theorem length_flatten_take_le (es : List Bytes) (i : Nat) :
    (es.take i).flatten.length ≤ es.flatten.length := by
  have hSplit : es.flatten = (es.take i).flatten ++ (es.drop i).flatten := by
    rw [← flatten_append, take_append_drop]
  rw [hSplit, length_append]
  omega

theorem length_flatten_take_succ {es : List Bytes} (hi : i < es.length) :
    (es.take (i + 1)).flatten.length = (es.take i).flatten.length + es[i].length := by
  rw [take_succ_eq_append_getElem hi, flatten_append, flatten_singleton,
    length_append]

/-- Where an entry ends: where the next row says that its entry starts, or at the end of the last one. -/
theorem getElem_ends {α : Type} {f : α → Int} {rows : List α} {es : List Bytes} {origin : Int}
    (hLength : rows.length = es.length)
    (hRows : ∀ i (hi : i < rows.length), f rows[i] = origin + (es.take i).flatten.length)
    (hStop : stop = origin + es.flatten.length) {i : Nat} (hi : i < rows.length)
    (he : i < es.length) (hEnd : i < ((rows.drop 1).map f ++ [stop]).length) :
    ((rows.drop 1).map f ++ [stop])[i] = f rows[i] + es[i].length := by
  have hNext : origin + (es.take (i + 1)).flatten.length = f rows[i] + es[i].length := by
    rw [hRows i hi, length_flatten_take_succ he]
    omega
  rw [← hNext]
  by_cases hLast : i + 1 < rows.length
  · rw [getElem_append_left (by simp; omega), getElem_map, getElem_drop]
    simp only [Nat.add_comm 1 i]
    exact hRows (i + 1) hLast
  · rw [getElem_append_right (by simp; omega), getElem_singleton, hStop,
      take_of_length_le (by omega)]

end Image

/-- A function is read with its name, its types and its machine code. -/
structure FunctionEntry.Shows (e : FunctionEntry) (f : FunctionCode) : Prop where
  name : e.name = Text.bytes f.name
  result : e.result = f.body.result
  params : e.params = f.body.paramTypes
  code : ∃ c, f.body.lower = .ok c ∧ e.code = c.code

/-- A function of any types is read with its name, its result and its machine code; a parameter of type
`void` hides those behind it. -/
structure FunctionEntry.Carries (e : FunctionEntry) (f : FunctionCode) : Prop where
  name : e.name = Text.bytes f.name
  result : e.result = f.body.result
  params : e.params = f.body.paramTypes.takeWhile (· != .void)
  code : ∃ c, f.body.lower = .ok c ∧ e.code = c.code

theorem FunctionEntry.Carries.shows {e : FunctionEntry} (h : e.Carries f)
    (hParams : ∀ t ∈ f.body.paramTypes, t.isValue = true) : e.Shows f where
  name := h.name
  result := h.result
  params := by
    rw [h.params, takeWhile_eq_self_iff]
    intro t ht
    simpa using (Ty.isValue_iff.mp (hParams t ht)).2
  code := h.code

/-- A handler is read with its event, the room of its locals and its machine code. -/
structure HandlerEntry.Shows (e : HandlerEntry) (h : HandlerCode) : Prop where
  kind : e.kind = h.kind
  localBytes : e.localBytes = h.body.localBytes
  code : ∃ c, h.body.lower = .ok c ∧ e.code = c.code

/-- A handler with a frame of any size is read with its event, the lowest 32 bits of that size and its
machine code. -/
structure HandlerEntry.Carries (e : HandlerEntry) (h : HandlerCode) : Prop where
  kind : e.kind = h.kind
  localBytes : e.localBytes = (Int32.ofInt h.body.localBytes).toInt
  code : ∃ c, h.body.lower = .ok c ∧ e.code = c.code

theorem HandlerEntry.Carries.shows {e : HandlerEntry} {h : HandlerCode} (he : e.Carries h)
    (hFrame : h.body.localBytes < 2 ^ 31) : e.Shows h where
  kind := he.kind
  localBytes := by rw [he.localBytes, toInt_ofInt (by omega) (by omega)]
  code := he.code

/-- A state is read with its name, the mask of its events and one handler for each of them. -/
structure StateEntry.Shows (e : StateEntry) (s : StateCode) : Prop where
  name : e.name = Text.bytes s.name
  events : e.events = s.eventMask
  handlers : Forall₂ HandlerEntry.Shows e.handlers s.events

/-- A state with frames of any size is read with its name, the mask of its events and its handlers. -/
structure StateEntry.Carries (e : StateEntry) (s : StateCode) : Prop where
  name : e.name = Text.bytes s.name
  events : e.events = s.eventMask
  handlers : Forall₂ HandlerEntry.Carries e.handlers s.events

theorem StateEntry.Carries.shows {e : StateEntry} (h : e.Carries s)
    (hFrames : ∀ h ∈ s.events, h.body.localBytes < 2 ^ 31) : e.Shows s where
  name := h.name
  events := h.events
  handlers := forall₂_imp_right h.handlers fun h hh _ he => he.shows (hFrames h hh)

/-- The room of a function behind the table: the way to the code, the type of the result, the name, the
types of the parameters and the code. -/
def FunctionEntry.room (e : FunctionEntry) : Nat :=
  4 + 1 + (e.name.length + 1) + (e.params.length + 1) + e.code.length

/-- The room of a state behind the table: the name, and the row and code of each handler. -/
def StateEntry.room (e : StateEntry) : Nat :=
  e.name.length + 1 + 8 * e.handlers.length + (e.handlers.map (·.code.length)).sum

namespace Image

variable {data : Array UInt8} {start stop : Int}

theorem length_flatten_eq_sum {α β : Type} {R : α → Bytes → Prop} {S : β → α → Prop}
    {room : β → Nat}
    {as : List α} {bs : List β} {parts : List Bytes}
    (hParts : Forall₂ R as parts) (h : Forall₂ S bs as)
    (hRoom : ∀ {a part b}, R a part → S b a → part.length = room b) : parts.flatten.length =
      (bs.map room).sum := by
  induction hParts generalizing bs with
  | nil =>
    cases h
    rfl
  | cons hPart _ ih =>
    cases h with
    | cons hHead hTail => simp [hRoom hPart hHead, ih hTail]

theorem functionEntry_eq_ok (h : functionEntry f = .ok e) :
    ∃ c, f.body.lower = .ok c ∧
      e = intWord (functionHeaderSize f.name f.body.paramTypes.length) ++
        UInt8.ofNat f.body.result.tag :: (nameBytes f.name ++
          ((f.body.paramTypes.map fun t => UInt8.ofNat t.tag) ++ [0] ++ c.code)) := by
  unfold functionEntry at h
  split at h
  · cases h
  · next c hLower =>
    cases h
    exact ⟨c, hLower, by simp⟩

theorem length_functionEntry {e : FunctionEntry} (h : functionEntry f = .ok bytes) (hShows : e.Shows f) :
    bytes.length = e.room := by
  obtain ⟨c, hLower, rfl⟩ := functionEntry_eq_ok h
  obtain ⟨c', hLower', hCode⟩ := hShows.code
  cases hLower.symm.trans hLower'
  simp only [FunctionEntry.room, hShows.name, hShows.params, hCode, nameBytes, length_append,
    length_cons, length_map, length_intWord, length_nil]
  omega

theorem functionAt_eq {next : Int} (place : Nat) (hEntry : functionEntry f = .ok e)
    (hName : 0 ∉ Text.bytes f.name) (hSize : data.size < 2 ^ 31) (hHolds : Holds data (start + offset) e)
    (hNext : next = offset + e.length) (hStop : start + next ≤ stop) :
    ∃ entry, functionAt data start stop place offset next = .ok entry ∧ entry.Carries f := by
  obtain ⟨c, hLower, rfl⟩ := functionEntry_eq_ok hEntry
  have hBounds := hHolds.bounds
  have hHeader : (functionHeaderSize f.name f.body.paramTypes.length : Int) =
      4 + 1 + (Text.bytes f.name).length + 1 + f.body.paramTypes.length + 1 := by
    rw [functionHeaderSize, Text.length_bytes]
    push_cast
    ring
  have hRest := hHolds.right.tail
  simp only [length_append, length_cons, length_map, length_intWord, nameBytes,
    length_nil] at hBounds hNext hRest
  have hWord : wordAt data (start + offset) = .ok _ := hHolds.left.number (by omega)
  have hTag : byteAt data (start + offset + 4) = .ok _ := hHolds.right.head.byte
  have hString : stringAt data (start + offset + 5) = .ok (Text.bytes f.name, _) :=
    (hRest.left.shift (by omega)).string hName
  have hTypes : typesFrom data (start + offset + 5 + (Text.bytes f.name).length + 1) = _ :=
    typesFrom_eq_takeWhile (hRest.right.left.shift (by simp; omega))
  have hCode : slice data (start + offset + functionHeaderSize f.name f.body.paramTypes.length)
      (start + next) = .ok c.code :=
    (hRest.right.right.shift (by simp; omega)).slice (by omega)
  refine ⟨⟨Text.bytes f.name, f.body.result, f.body.paramTypes.takeWhile (· != .void), offset,
    start + offset + functionHeaderSize f.name f.body.paramTypes.length, c.code⟩, ?_,
    ⟨rfl, rfl, rfl, c, hLower, rfl⟩⟩
  simp only [functionAt, hWord, hTag, hString, hTypes, hCode, ok_bind, Ty.ofTag_ofNat]
  rw [if_neg (by omega)]
  rfl

theorem writeFunctions_eq_ok (h : writeFunctions fs = .ok out) :
    ∃ es, Forall₂ (fun f e => functionEntry f = .ok e) fs es ∧
      out = intWord fs.length ++ ((starts (4 + 4 * fs.length) es).flatMap (fun (o : Nat) => intWord o) ++
        es.flatten) := by
  simp only [writeFunctions, bind_eq_ok, pure_eq_ok, mapM_eq_ok] at h
  obtain ⟨es, hEntries, rfl⟩ := h
  exact ⟨es, hEntries, append_assoc ..⟩

theorem length_writeFunctions {entries : List FunctionEntry} (h : writeFunctions fs = .ok out)
    (hShows : Forall₂ FunctionEntry.Shows entries fs) :
    out.length = 4 + 4 * entries.length + (entries.map FunctionEntry.room).sum := by
  obtain ⟨es, hEntries, rfl⟩ := writeFunctions_eq_ok h
  have hRun := length_flatten_eq_sum hEntries hShows length_functionEntry
  have hLength := hEntries.length_eq
  have hCount := hShows.length_eq
  simp only [length_append, length_intWord, length_starts,
    length_rows (fun o : Nat => length_intWord o)]
  omega

theorem readFunctions_carries (hWrite : writeFunctions fs = .ok out)
    (hNames : ∀ f ∈ fs, 0 ∉ Text.bytes f.name) (hSize : data.size < 2 ^ 31)
      (hHolds : Holds data start out)
    (hStop : stop = start + out.length) :
    ∃ entries, readFunctions data start stop = .ok entries ∧
      Forall₂ FunctionEntry.Carries entries fs := by
  obtain ⟨es, hEntries, rfl⟩ := writeFunctions_eq_ok hWrite
  have hLength := hEntries.length_eq
  have hBounds := hHolds.bounds
  have hTable := hHolds.right.left
  have hRun := hHolds.right.right
  simp only [length_append, length_intWord, length_starts,
    length_rows (fun o : Nat => length_intWord o)] at hBounds hTable hRun hStop
  have hCount : wordAt data start = .ok fs.length := hHolds.left.number (by omega)
  have hOffsets : (List.range fs.length).mapM (fun (i : Nat) => wordAt data (start + 4 + i * 4)) =
      .ok ((starts (4 + 4 * fs.length) es).map fun (o : Nat) => (o : Int)) := by
    conv_lhs => rw [hLength, ← length_starts (4 + 4 * fs.length) es]
    refine hTable.rows (fun o => length_intWord o) fun i hi hRow => ?_
    have hStart := length_flatten_take_le es i
    refine (hRow.shift (by push_cast; ring)).number ?_
    rw [getElem_starts]
    omega
  have hCountNat : (fs.length : Int).toNat = fs.length := Int.toNat_natCast _
  simp only [readFunctions, hCount, ok_bind, hCountNat, hOffsets]
  rw [if_neg (by omega)]
  apply exists_mapM
  refine forall₂_of_getElem (by simp [hLength]; omega) fun i hi hf => ?_
  have he : i < es.length := hLength ▸ hf
  simp only [getElem_zip, getElem_range, getElem_map, getElem_starts]
  have hEnd := @getElem_ends (stop - start) Int id
    ((starts (4 + 4 * fs.length) es).map fun (o : Nat) => (o : Int)) es (4 + 4 * fs.length)
    (by simp) (fun i hi => by simp [getElem_starts]) (by omega) i (by simpa using he) he
    (by simp; omega)
  simp only [map_id, getElem_map, getElem_starts, id] at hEnd
  rw [hEnd]
  refine functionAt_eq i (getElem_forall₂ hEntries hf he) (hNames _ (getElem_mem _)) hSize ?_ rfl ?_
  · exact (hRun.entry he).shift (by push_cast; omega)
  · have hInside := length_flatten_take_le es (i + 1)
    rw [length_flatten_take_succ he] at hInside
    push_cast
    omega

theorem readFunctions_eq (hWrite : writeFunctions fs = .ok out)
    (hNames : ∀ f ∈ fs, 0 ∉ Text.bytes f.name)
    (hParams : ∀ f ∈ fs, ∀ t ∈ f.body.paramTypes, t.isValue = true) (hSize : data.size < 2 ^ 31)
    (hHolds : Holds data start out) (hStop : stop = start + out.length) :
    ∃ entries, readFunctions data start stop = .ok entries ∧
      Forall₂ FunctionEntry.Shows entries fs := by
  obtain ⟨entries, hRead, hCarries⟩ := readFunctions_carries hWrite hNames hSize hHolds hStop
  exact ⟨entries, hRead, forall₂_imp_right hCarries fun f hf _ he => he.shows (hParams f hf)⟩

theorem testBit_mask {k : EventKind} (hk : k.code < 64) (hi : i < 64) :
    k.mask.toNat.testBit i = (k.code.toNat == i) := by
  have hBelow : k.code.toNat < 64 := UInt8.lt_iff_toNat_lt.mp hk
  have hShift : k.code.toUInt64.toNat % 64 = k.code.toNat := by
    rw [UInt8.toNat_toUInt64, Nat.mod_eq_of_lt hBelow]
  rw [EventKind.mask, if_pos hk, UInt64.toNat_shiftLeft, hShift, Nat.testBit_mod_two_pow,
    UInt64.toNat_one, Nat.shiftLeft_eq, Nat.one_mul, Nat.testBit_two_pow]
  simp [hi]
  rfl

theorem testBit_foldl_mask (es : List HandlerCode) (m : UInt64) (h : ∀ e ∈ es, e.kind.code < 64)
    (hi : i < 64) :
    (es.foldl (fun m e => m ||| e.kind.mask) m).toNat.testBit i =
      (m.toNat.testBit i || es.any fun e => e.kind.code.toNat == i) := by
  induction es generalizing m with
  | nil => simp
  | cons e es ih =>
    rw [foldl_cons, ih _ fun e' he' => h e' (by simp [he']), any_cons, UInt64.toNat_or,
      Nat.testBit_or, Bool.or_assoc, testBit_mask (h e (by simp)) hi]

/-- The bits of the mask of ascending events are the numbers of the events, in their order. -/
theorem bitsOf_eventMask (hBelow : ∀ e ∈ s.events, e.kind.code < 64)
    (hAscending : (s.events.map (·.kind.code)).Pairwise (· < ·)) :
    bitsOf s.eventMask = s.events.map (·.kind.code.toNat) := by
  apply @List.Pairwise.eq_of_mem_iff Nat (· < ·)
  · exact List.Pairwise.filter _ pairwise_lt_range
  · rw [pairwise_map] at hAscending ⊢
    exact hAscending.imp UInt8.lt_iff_toNat_lt.mp
  · intro k
    have hSmall : ∀ e ∈ s.events, e.kind.code.toNat < 64 := fun e he =>
      UInt8.lt_iff_toNat_lt.mp (hBelow e he)
    rw [bitsOf, mem_filter, mem_range, mem_map, StateCode.eventMask]
    constructor
    · rintro ⟨hk, hBit⟩
      rw [testBit_foldl_mask _ _ hBelow hk] at hBit
      simpa using hBit
    · rintro ⟨e, he, rfl⟩
      refine ⟨hSmall e he, ?_⟩
      rw [testBit_foldl_mask _ _ hBelow (hSmall e he)]
      simpa using ⟨e, he, rfl⟩

theorem stateEntry_eq_ok (h : stateEntry s = .ok e) :
    ∃ codes origin,
      Forall₂ (fun (e : HandlerCode) code => ∃ c, e.body.lower = .ok c ∧ code = c.code)
        s.events codes ∧
      origin = (nameBytes s.name).length + 8 * s.events.length ∧
      e = nameBytes s.name ++ (((s.events.zip (starts origin codes)).flatMap fun r =>
        intWord r.2 ++ intWord r.1.body.localBytes) ++ codes.flatten) := by
  simp only [stateEntry, bind_eq_ok, pure_eq_ok, mapM_eq_ok] at h
  obtain ⟨codes, hCodes, rfl⟩ := h
  refine ⟨codes, _, hCodes.imp fun e code he => ?_, rfl, append_assoc ..⟩
  split at he
  · cases he
  · next c hLower =>
    cases he
    exact ⟨c, hLower, rfl⟩

theorem length_stateEntry {e : StateEntry} (h : stateEntry s = .ok bytes) (hShows : e.Shows s) :
    bytes.length = e.room := by
  obtain ⟨codes, origin, hCodes, -, rfl⟩ := stateEntry_eq_ok h
  have hRun := @length_flatten_eq_sum _ _ _ _ (fun h : HandlerEntry => h.code.length) _ _ _ hCodes
    hShows.handlers fun ⟨c, hLower, hSame⟩ hHandler => by
      obtain ⟨c', hLower', hCode⟩ := hHandler.code
      cases hLower.symm.trans hLower'
      rw [hSame, hCode]
  have hLength := hCodes.length_eq
  have hCount := hShows.handlers.length_eq
  have hWidth : ∀ r : HandlerCode × Nat,
      (intWord r.2 ++ intWord r.1.body.localBytes).length = 8 := fun r => by simp
  simp only [StateEntry.room, hShows.name, nameBytes, length_append, length_rows hWidth,
    length_zip, length_starts, length_cons, length_nil]
  omega

def rowOf (r : HandlerCode × Nat) : EventKind × Int × Int :=
  (r.1.kind, r.2, (Int32.ofInt r.1.body.localBytes).toInt)

theorem handlerRows_eq {s : StateCode} {offsets : List Nat} {pos : Int}
    (hLength : s.events.length = offsets.length) (hOffsets : ∀ o ∈ offsets, o < 2 ^ 31)
    (hBelow : ∀ h ∈ s.events, h.kind.code < 64)
    (hAscending : (s.events.map (·.kind.code)).Pairwise (· < ·))
    (hTable : Holds data pos ((s.events.zip offsets).flatMap fun r =>
      intWord r.2 ++ intWord r.1.body.localBytes)) :
    ((bitsOf s.eventMask).zip (List.range (bitsOf s.eventMask).length)).mapM
      (fun (k, i) => handlerRow data (pos + 8 * i) k) = .ok ((s.events.zip offsets).map rowOf) := by
  rw [bitsOf_eventMask hBelow hAscending, mapM_eq_ok]
  refine forall₂_of_getElem (by simp [hLength]) fun i hi hi' => ?_
  have hEvent : i < s.events.length := by simpa using hi
  have hOffset : i < offsets.length := hLength ▸ hEvent
  have hRow := @Holds.row _ _ _ _ _ 8 hTable (fun r => by simp) i (by simpa using hi')
  simp only [getElem_zip, getElem_map, getElem_range, rowOf] at hRow ⊢
  have hFirst : wordAt data (pos + 8 * i) = .ok _ :=
    hRow.left.number (hOffsets _ (getElem_mem hOffset))
  have hSecond : wordAt data (pos + 8 * i + 4) = .ok _ :=
    hRow.right.word
  have hKind : (⟨UInt8.ofNat s.events[i].kind.code.toNat⟩ : EventKind) = s.events[i].kind := by
    rw [UInt8.ofNat_toNat]
  simp only [handlerRow, hFirst, hSecond, ok_bind, hKind]
  rfl

theorem handlers_eq {s : StateCode} {codes : List Bytes} {base : Int} {origin : Nat}
    (hCodes : Forall₂ (fun (e : HandlerCode) code => ∃ c, e.body.lower = .ok c ∧ code = c.code)
      s.events codes)
    (hRun : Holds data (base + origin) codes.flatten)
    (hStop : stop = base + origin + codes.flatten.length) :
    ∃ hs, (((s.events.zip (starts origin codes)).map rowOf).zip
        ((((s.events.zip (starts origin codes)).map rowOf).drop 1).map
          (fun (_, o, _) => base + o) ++ [stop])).mapM (fun ((kind, o, localBytes), codeEnd) => do
        return { kind, offset := o, localBytes, codeStart := base + o,
                 code := ← slice data (base + o) codeEnd : HandlerEntry }) = .ok hs ∧
      Forall₂ HandlerEntry.Carries hs s.events := by
  have hLength := hCodes.length_eq
  apply exists_mapM
  refine forall₂_of_getElem (by simp [hLength]; omega) fun i hi hEvent => ?_
  have hCode : i < codes.length := hLength ▸ hEvent
  have hEnd := @getElem_ends stop _ (fun (r : EventKind × Int × Int) => base + r.2.1)
    ((s.events.zip (starts origin codes)).map rowOf) codes (base + origin) (by simp [hLength])
    (fun i hi => by
      simp only [getElem_map, getElem_zip, rowOf, getElem_starts]
      push_cast
      ring)
    hStop i (by simp [hLength, hCode]) hCode (by simp [hLength]; omega)
  obtain ⟨c, hLower, hSame⟩ := getElem_forall₂ hCodes hEvent hCode
  rw [getElem_zip, hEnd]
  simp only [getElem_map, getElem_zip, rowOf, getElem_starts]
  have hHeld : Holds data (base + ((origin + (codes.take i).flatten.length : Nat) : Int)) codes[i] :=
    (hRun.entry hCode).shift (by push_cast; ring)
  simp only [hHeld.slice rfl, ok_bind]
  exact ⟨_, rfl, rfl, rfl, c, hLower, hSame⟩

theorem stateAt_eq (hEntry : stateEntry s = .ok e) (hName : 0 ∉ Text.bytes s.name)
    (hBelow : ∀ h ∈ s.events, h.kind.code < 64) (hAscending : (s.events.map (·.kind.code)).Pairwise
      (· < ·))
    (hSize : data.size < 2 ^ 31) (hHolds : Holds data (start + offset) e)
    (hStop : stop = start + offset + e.length) :
    ∃ entry, stateAt data start offset stop s.eventMask = .ok entry ∧ entry.Carries s := by
  obtain ⟨codes, origin, hCodes, hOrigin, rfl⟩ := stateEntry_eq_ok hEntry
  have hLength := hCodes.length_eq
  have hBounds := hHolds.bounds
  have hWidth : ∀ r : HandlerCode × Nat,
      (intWord r.2 ++ intWord r.1.body.localBytes).length = 8 := fun r => by simp
  have hTable := hHolds.right.left
  have hRun := hHolds.right.right
  simp only [nameBytes, length_append, length_cons, length_nil, length_rows hWidth,
    length_zip, length_starts, hLength, Nat.min_self] at hBounds hTable hRun hStop hOrigin
  have hOffsets : ∀ o ∈ starts origin codes, o < 2 ^ 31 := fun o ho => by
    obtain ⟨i, hi, rfl⟩ := List.mem_iff_getElem.mp ho
    have hStart := length_flatten_take_le codes i
    rw [getElem_starts]
    omega
  have hString : stringAt data (start + offset) = .ok (Text.bytes s.name, _) :=
    hHolds.left.string hName
  have hRows := @handlerRows_eq data s (starts origin codes)
    (start + offset + (Text.bytes s.name).length + 1) (by simp [hLength]) hOffsets hBelow hAscending
    (hTable.shift (by push_cast; ring))
  obtain ⟨hs, hRead, hCarries⟩ := @handlers_eq data stop s codes (start + offset) origin hCodes
    (hRun.shift (by push_cast [hOrigin]; ring)) (by push_cast [hOrigin, hStop]; ring)
  refine ⟨⟨Text.bytes s.name, offset, s.eventMask, hs⟩, ?_, rfl, rfl, hCarries⟩
  simp only [stateAt, hString, ok_bind, hRows, hRead]
  rfl

theorem writeStates_eq_ok (h : writeStates ss = .ok out) :
    ∃ es, Forall₂ (fun s e => stateEntry s = .ok e) ss es ∧
      out = intWord ss.length ++ (((ss.zip (starts (4 + 12 * ss.length) es)).flatMap fun r =>
        intWord r.2 ++ word64 r.1.eventMask) ++ es.flatten) := by
  simp only [writeStates, bind_eq_ok, pure_eq_ok, mapM_eq_ok] at h
  obtain ⟨es, hEntries, rfl⟩ := h
  exact ⟨es, hEntries, append_assoc ..⟩

theorem length_writeStates {entries : List StateEntry} (h : writeStates ss = .ok out)
    (hShows : Forall₂ StateEntry.Shows entries ss) :
    out.length = 4 + 12 * entries.length + (entries.map StateEntry.room).sum := by
  obtain ⟨es, hEntries, rfl⟩ := writeStates_eq_ok h
  have hRun := length_flatten_eq_sum hEntries hShows length_stateEntry
  have hLength := hEntries.length_eq
  have hCount := hShows.length_eq
  have hWidth : ∀ r : StateCode × Nat, (intWord r.2 ++ word64 r.1.eventMask).length = 12 :=
    fun r => by simp
  simp only [length_append, length_intWord, length_rows hWidth, length_zip, length_starts]
  omega

theorem readStates_carries (hWrite : writeStates ss = .ok out)
    (hNames : ∀ s ∈ ss, 0 ∉ Text.bytes s.name)
    (hBelow : ∀ s ∈ ss, ∀ h ∈ s.events, h.kind.code < 64)
    (hAscending : ∀ s ∈ ss, (s.events.map (·.kind.code)).Pairwise (· < ·)) (hSize : data.size < 2 ^ 31)
    (hHolds : Holds data start out) (hStop : stop = start + out.length) :
    ∃ entries, readStates data start stop = .ok entries ∧
      Forall₂ StateEntry.Carries entries ss := by
  obtain ⟨es, hEntries, rfl⟩ := writeStates_eq_ok hWrite
  have hLength := hEntries.length_eq
  have hBounds := hHolds.bounds
  have hWidth : ∀ r : StateCode × Nat, (intWord r.2 ++ word64 r.1.eventMask).length = 12 :=
    fun r => by simp
  have hTable := hHolds.right.left
  have hRun := hHolds.right.right
  simp only [length_append, length_intWord, length_rows hWidth, length_zip, length_starts,
    hLength, Nat.min_self] at hBounds hTable hRun hStop
  have hCount : wordAt data start = .ok ss.length := hHolds.left.number (by omega)
  have hRows : (List.range ss.length).mapM (fun (i : Nat) => do
      let row := start + 4 + i * 12
      return (← wordAt data row, ← longAt data (row + 4))) =
      .ok ((ss.zip (starts (4 + 12 * es.length) es)).map fun r => ((r.2 : Int), r.1.eventMask)) := by
    have hCountRows : ss.length = (ss.zip (starts (4 + 12 * es.length) es)).length := by simp [hLength]
    conv_lhs => rw [hCountRows]
    refine hTable.rows hWidth fun i hi hRow => ?_
    have hStart := length_flatten_take_le es i
    have hPlace : start + 4 + (12 : Nat) * i = start + 4 + i * 12 := by push_cast; ring
    simp only [getElem_zip, getElem_starts] at hRow ⊢
    have hFirst : wordAt data (start + 4 + i * 12) = .ok _ :=
      (hRow.left.shift hPlace).number (by omega)
    have hSecond : longAt data (start + 4 + i * 12 + 4) = .ok _ :=
      (hRow.right.shift (by rw [length_intWord]; push_cast; ring)).long
    simp only [hFirst, hSecond, ok_bind]
    rfl
  have hCountNat : (ss.length : Int).toNat = ss.length := Int.toNat_natCast _
  simp only [readStates, hCount, ok_bind, hCountNat, hRows]
  rw [if_neg (by omega)]
  apply exists_mapM
  refine forall₂_of_getElem (by simp [hLength]; omega) fun i hi hs => ?_
  have he : i < es.length := hLength ▸ hs
  have hEnd := @getElem_ends stop _ (fun (r : Int × UInt64) => start + r.1)
    ((ss.zip (starts (4 + 12 * es.length) es)).map fun r => ((r.2 : Int), r.1.eventMask)) es
    (start + (4 + 12 * es.length)) (by simp [hLength])
    (fun i hi => by
      simp only [getElem_map, getElem_zip, getElem_starts]
      push_cast
      ring)
    (by push_cast at hStop; omega) i (by simp [hLength, he]) he (by simp [hLength]; omega)
  rw [getElem_zip, hEnd]
  simp only [getElem_map, getElem_zip, getElem_starts]
  exact stateAt_eq (getElem_forall₂ hEntries hs he) (hNames _ (getElem_mem _))
    (hBelow _ (getElem_mem _)) (hAscending _ (getElem_mem _)) hSize
    ((hRun.entry he).shift (by push_cast; ring)) rfl

theorem readStates_eq (hWrite : writeStates ss = .ok out) (hNames : ∀ s ∈ ss, 0 ∉ Text.bytes s.name)
    (hBelow : ∀ s ∈ ss, ∀ h ∈ s.events, h.kind.code < 64)
    (hAscending : ∀ s ∈ ss, (s.events.map (·.kind.code)).Pairwise (· < ·))
    (hFrames : ∀ s ∈ ss, ∀ h ∈ s.events, h.body.localBytes < 2 ^ 31) (hSize : data.size < 2 ^ 31)
    (hHolds : Holds data start out) (hStop : stop = start + out.length) :
    ∃ entries, readStates data start stop = .ok entries ∧
      Forall₂ StateEntry.Shows entries ss := by
  obtain ⟨entries, hRead, hCarries⟩ :=
    readStates_carries hWrite hNames hBelow hAscending hSize hHolds hStop
  exact ⟨entries, hRead, forall₂_imp_right hCarries fun s hs _ he => he.shows (hFrames s hs)⟩

end Image
end Lsl
