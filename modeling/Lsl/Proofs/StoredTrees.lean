import Lsl.Proofs.HalfPrecision
import Lsl.Proofs.ImageSections
import Lsl.Proofs.WrittenItems
import Lsl.Script.Stored

/-! Stored trees. The bytes of a node can be told from what follows, and they tell the node, but for the sign
of a zero and the payload of a NaN in its literals. -/
namespace Lsl

open List

variable {fields : List (Nat × Item)} {lists' : List (List Node)}

variable {lists : List (List Node)} {ns : List Node} {n m : Node}

theorem Operator.ofCode_code (op : Operator) : ofCode op.code = op := by
  cases op with
  | unknown n =>
    have hRange : (n.val + 22) % 256 = n.val + 22 := Nat.mod_eq_of_lt (by omega)
    rw [code, ofCode, hRange]
    exact congrArg unknown (Fin.ext (Nat.mod_eq_of_lt n.isLt))
  | _ => rfl

theorem Operator.code_inj {op op' : Operator} (h : op.code = op'.code) : op = op' := by
  rw [← ofCode_code op, h, ofCode_code]

theorem Ty.tag_inj {t t' : Ty} (h : t.tag = t'.tag) : t = t' := by
  rw [← Ty.ofTag_ofNat t, h, Ty.ofTag_ofNat]

theorem Ty.tag_lt (t : Ty) : t.tag < 256 := by
  cases t <;> simp only [Ty.tag] <;> omega

namespace Node

open Cbor (Item)

@[elab_as_elim, induction_eliminator]
theorem recursion {motive : Node → Prop} (null : motive null)
    (node : ∀ f kids lists, (∀ n ∈ kids, motive n) → (∀ ns ∈ lists, ∀ n ∈ ns, motive n) →
      motive (node f kids lists)) (n : Node) : motive n := by
  apply @Node.rec motive (fun ns => ∀ n ∈ ns, motive n) (fun lists => ∀ ns ∈ lists, ∀ n ∈ ns,
    motive n)
  case null => exact null
  case node => exact node
  all_goals simp_all

def wholeItem (n : Int) : Item := if n < 0 then .nint (-1 - n).toNat else .uint n.toNat

def textItem (s : String) : Item := .text [Text.bytes s]

def floatItem (x : Single) : Item :=
  match x.toHalf? with
  | some h => .half h
  | none => .single x.bits

def present (zero : Bool) (number : Nat) (content : Item) : List (Nat × Item) :=
  if zero then [] else [(number, content)]

def fieldItems (f : NodeFields) : List (Nat × Item) :=
  present false 1 (textItem f.kind) ++
    present (f.line == 0) 2 (wholeItem f.line) ++
    present (f.column == 0) 3 (wholeItem f.column) ++
    present (f.name == "") 4 (textItem f.name) ++
    present (f.ty == .void) 5 (wholeItem f.ty.tag) ++
    present (f.op == .none) 6 (wholeItem f.op.code) ++
    present (f.int == 0) 7 (wholeItem f.int.toInt) ++
    present f.float.isZero 8 (floatItem f.float) ++
    present (f.text == "") 9 (textItem f.text) ++
    present (f.member == "") 10 (textItem f.member) ++
    present (f.flags == 0) 11 (wholeItem f.flags.toNat)

def entries (fields : List (Nat × Item)) : List Item := fields.flatMap fun f => [.uint f.1, f.2]

mutual

def toItem : Node → Item
  | null => .simple 22
  | node f kids lists =>
    .map (entries (fieldItems f ++ present kids.isEmpty 12 (.array (toItems kids)) ++
      present lists.isEmpty 13 (.array (toLists lists))))

def toItems : List Node → List Item
  | [] => []
  | n :: ns => toItem n :: toItems ns

def toLists : List (List Node) → List Item
  | [] => []
  | ns :: rest => .array (toItems ns) :: toLists rest

end

theorem map_present {α : Type} (g : Nat × Item → α) (zero : Bool) (number : Nat) (content : Item) :
    (present zero number content).map g = if zero then [] else [g (number, content)] := by
  cases zero <;> rfl

theorem length_present_le (zero : Bool) (number : Nat) (content : Item) :
    (present zero number content).length ≤ 1 := by
  cases zero <;> simp [present]

theorem forall_mem_present {P : Nat × Item → Prop} {zero : Bool} {number : Nat} {content : Item} :
    (∀ field ∈ present zero number content, P field) ↔ (zero = false → P (number, content)) := by
  cases zero <;> simp [present]

theorem lookup_present (key : Nat) (zero : Bool) (number : Nat) (content : Item) :
    (present zero number content).lookup key =
      if key = number ∧ zero = false then some content else none := by
  cases zero with
  | true => simp [present]
  | false =>
    by_cases h : key = number
    · simp [present, h]
    · have hKey : (key == number) = false := beq_eq_false_iff_ne.mpr h
      simp [present, lookup_cons, hKey, h]

theorem write_wholeItem (n : Int) : (wholeItem n).write = Item.ofInt n := by
  unfold wholeItem Item.ofInt
  split <;> rfl

theorem write_textItem (s : String) : (textItem s).write = Item.ofText (Text.bytes s) := by
  rw [textItem, Item.write, flatten_singleton, Item.ofText]

theorem write_floatItem (x : Single) : (floatItem x).write = floatBytes x := by
  unfold floatItem floatBytes
  cases x.toHalf? with
  | none => rfl
  | some h => rfl

theorem fieldBytes_eq (f : NodeFields) :
    fieldBytes f = (fieldItems f).map fun field => (field.1, field.2.write) := by
  simp only [fieldBytes, fieldItems, map_append, map_present, write_textItem, write_wholeItem,
    write_floatItem, Bool.false_eq_true, if_false]

theorem length_entries (fields : List (Nat × Item)) : (entries fields).length = 2 * fields.length := by
  induction fields with
  | nil => rfl
  | cons f fs ih =>
    rw [entries, flatMap_cons, length_append, ← entries, ih]
    simp
    omega

theorem writeAll_entries (fields : List (Nat × Item)) : Item.writeAll (entries fields) =
    (fields.map fun field => (field.1, field.2.write)).flatMap
      fun (n, content) => Item.ofInt n ++ content := by
  induction fields with
  | nil => rfl
  | cons f fs ih =>
    have hKey : (Item.uint f.1).write = Item.ofInt f.1 := rfl
    rw [entries, flatMap_cons, ← entries]
    simp only [cons_append, nil_append, Item.writeAll, ih, hKey, map_cons,
      flatMap_cons, append_assoc]

theorem entries_inj {fs gs : List (Nat × Item)} (h : entries fs = entries gs) : fs = gs := by
  induction fs generalizing gs with
  | nil =>
    cases gs with
    | nil => rfl
    | cons => cases h
  | cons f fs ih =>
    cases gs with
    | nil => cases h
    | cons g gs =>
      simp only [entries, flatMap_cons, cons_append, nil_append, List.cons.injEq,
        Item.uint.injEq] at h
      rw [Prod.ext h.1 h.2.1, ih h.2.2]

theorem length_toItems (ns : List Node) : (toItems ns).length = ns.length := by
  induction ns with
  | nil => rfl
  | cons n ns ih => rw [toItems, length_cons, ih, length_cons]

theorem length_toLists (lists : List (List Node)) : (toLists lists).length = lists.length := by
  induction lists with
  | nil => rfl
  | cons ns rest ih => rw [toLists, length_cons, ih, length_cons]

theorem encodeAll_eq (h : ∀ n ∈ ns, n.encode = n.toItem.write) :
    encodeAll ns = Item.writeAll (toItems ns) := by
  induction ns with
  | nil => rfl
  | cons n ns ih =>
    rw [encodeAll, toItems, Item.writeAll, h n (by simp), ih fun x hx => h x (by simp [hx])]

theorem encodeLists_eq (h : ∀ ns ∈ lists, ∀ n ∈ ns, n.encode = n.toItem.write) :
    encodeLists lists = Item.writeAll (toLists lists) := by
  induction lists with
  | nil => rfl
  | cons ns rest ih =>
    rw [encodeLists, toLists, Item.writeAll, Item.write, length_toItems, encodeAll_eq (h ns (by simp)),
      ih fun x hx => h x (by simp [hx])]

/-- The bytes of a node are those of its item. -/
theorem encode_eq (n : Node) : n.encode = n.toItem.write := by
  induction n with
  | null => rfl
  | node f kids lists hKids hLists =>
    rw [encode, toItem, Item.write, length_entries, writeAll_entries, Nat.mul_div_cancel_left _ (by decide),
      fieldBytes_eq, encodeAll_eq hKids, encodeLists_eq hLists]
    have hLength : ∀ fields : List (Nat × Item),
        fields.length = (fields.map fun field => (field.1, field.2.write)).length := by simp
    rw [hLength]
    simp only [map_append, map_present, Item.write, length_toItems, length_toLists]

def textFits (s : String) : Bool := (Text.bytes s).length < 2 ^ 64

/-- Whether positions are numbers of 64 bits with a sign, and lengths such without one. -/
def fieldsFit (f : NodeFields) : Bool :=
  decide (-2 ^ 63 ≤ f.line ∧ f.line < 2 ^ 63 ∧ -2 ^ 63 ≤ f.column ∧ f.column < 2 ^ 63) &&
    textFits f.kind && textFits f.name && textFits f.text && textFits f.member

mutual

def fits : Node → Bool
  | null => true
  | node f kids lists =>
    fieldsFit f && kids.length < 2 ^ 64 && fitAll kids && lists.length < 2 ^ 64 && fitLists lists

def fitAll : List Node → Bool
  | [] => true
  | n :: ns => fits n && fitAll ns

def fitLists : List (List Node) → Bool
  | [] => true
  | ns :: rest => ns.length < 2 ^ 64 && fitAll ns && fitLists rest

end

theorem settledAll_entries (h : ∀ field ∈ fields, field.1 < 2 ^ 64 ∧ field.2.Settled) :
    Item.SettledAll (entries fields) := by
  induction fields with
  | nil => trivial
  | cons f fs ih =>
    obtain ⟨hKey, hValue⟩ := h f (by simp)
    exact ⟨hKey, hValue, ih fun x hx => h x (by simp [hx])⟩

theorem settled_map_entries (hCount : fields.length < 2 ^ 64)
    (h : ∀ field ∈ fields, field.1 < 2 ^ 64 ∧ field.2.Settled) :
      (Item.map (entries fields)).Settled := by
  have hLength := length_entries fields
  have hEntries := settledAll_entries h
  generalize entries fields = items at hLength hEntries ⊢
  exact ⟨by omega, by omega, hEntries⟩

theorem settled_wholeItem {n : Int} (hLow : -2 ^ 64 ≤ n) (hHigh : n < 2 ^ 64) : (wholeItem n).Settled := by
  unfold wholeItem
  split
  · show (-1 - n).toNat < 2 ^ 64
    omega
  · show n.toNat < 2 ^ 64
    omega

theorem settled_textItem {s : String} (h : textFits s = true) : (textItem s).Settled := by
  refine ⟨rfl, ?_⟩
  rw [flatten_singleton]
  exact of_decide_eq_true h

theorem settled_floatItem (x : Single) : (floatItem x).Settled := by
  unfold floatItem
  cases x.toHalf? with
  | none => trivial
  | some h => trivial

theorem settled_byteItem {n : Nat} (h : n < 256) : (wholeItem n).Settled :=
  settled_wholeItem (by omega) (by omega)

theorem settled_fieldItems {f : NodeFields} (h : fieldsFit f = true) :
    ∀ field ∈ fieldItems f, field.1 < 2 ^ 64 ∧ field.2.Settled := by
  simp only [fieldsFit, Bool.and_eq_true, decide_eq_true_eq] at h
  obtain ⟨⟨⟨⟨⟨hLine, hLine', hColumn, hColumn'⟩, hKind⟩, hName⟩, hText⟩, hMember⟩ := h
  have hOp : f.op.code < 256 := by
    cases hf : f.op <;> simp only [Operator.code] <;> omega
  have hInt := f.int.le_toInt
  have hInt' := f.int.toInt_lt
  have hFlags : f.flags.toNat < 256 := f.flags.toNat_lt
  simp only [fieldItems, forall_mem_append, forall_mem_present]
  refine ⟨⟨⟨⟨⟨⟨⟨⟨⟨⟨?_, ?_⟩, ?_⟩, ?_⟩, ?_⟩, ?_⟩, ?_⟩, ?_⟩, ?_⟩, ?_⟩,
    ?_⟩ <;>
    refine fun _ => ⟨Nat.lt_trans (by decide : _ < 12) (by decide), ?_⟩
  · exact settled_textItem hKind
  · exact settled_wholeItem (by omega) (by omega)
  · exact settled_wholeItem (by omega) (by omega)
  · exact settled_textItem hName
  · exact settled_byteItem f.ty.tag_lt
  · exact settled_byteItem hOp
  · exact settled_wholeItem (by omega) (by omega)
  · exact settled_floatItem f.float
  · exact settled_textItem hText
  · exact settled_textItem hMember
  · exact settled_byteItem hFlags

theorem length_fieldItems_le (f : NodeFields) : (fieldItems f).length ≤ 11 := by
  simp only [fieldItems, length_append]
  grind [length_present_le]

theorem settled_toItems (h : ∀ n ∈ ns, n.fits = true → n.toItem.Settled)
    (hFits : fitAll ns = true) : Item.SettledAll (toItems ns) := by
  induction ns with
  | nil => trivial
  | cons n ns ih =>
    obtain ⟨hHead, hRest⟩ := Bool.and_eq_true_iff.mp hFits
    exact ⟨h n (by simp) hHead, ih (fun x hx => h x (by simp [hx])) hRest⟩

theorem settled_toLists
    (h : ∀ ns ∈ lists, ∀ n ∈ ns, n.fits = true → n.toItem.Settled) (hFits : fitLists lists = true) :
    Item.SettledAll (toLists lists) := by
  induction lists with
  | nil => trivial
  | cons ns rest ih =>
    simp only [fitLists, Bool.and_eq_true, decide_eq_true_eq] at hFits
    obtain ⟨⟨hLength, hItems⟩, hRest⟩ := hFits
    refine ⟨⟨?_, settled_toItems (h ns (by simp)) hItems⟩, ih (fun x hx => h x (by simp [hx])) hRest⟩
    rwa [length_toItems]

/-- The item of a node in range is written in one way. -/
theorem settled_toItem (hFits : n.fits = true) : n.toItem.Settled := by
  induction n with
  | null => exact (by decide : (22 : Nat) < 24)
  | node f kids lists hKids hLists =>
    simp only [fits, Bool.and_eq_true, decide_eq_true_eq] at hFits
    obtain ⟨⟨⟨⟨hFields, hCount⟩, hAll⟩, hLength⟩, hRest⟩ := hFits
    have hKidsField : ∀ field ∈ present kids.isEmpty 12 (.array (toItems kids)),
        field.1 < 2 ^ 64 ∧ field.2.Settled :=
      forall_mem_present.mpr fun _ =>
        ⟨(by decide : (12 : Nat) < 2 ^ 64), by rwa [length_toItems], settled_toItems hKids hAll⟩
    have hListsField : ∀ field ∈ present lists.isEmpty 13 (.array (toLists lists)),
        field.1 < 2 ^ 64 ∧ field.2.Settled :=
      forall_mem_present.mpr fun _ =>
        ⟨(by decide : (13 : Nat) < 2 ^ 64), by rwa [length_toLists], settled_toLists hLists hRest⟩
    have hSettled := List.forall_mem_append.mpr
      ⟨List.forall_mem_append.mpr ⟨settled_fieldItems hFields, hKidsField⟩, hListsField⟩
    refine settled_map_entries ?_ hSettled
    have hCount := length_fieldItems_le f
    have hCount' := length_present_le kids.isEmpty 12 (.array (toItems kids))
    have hCount'' := length_present_le lists.isEmpty 13 (.array (toLists lists))
    rw [length_append, length_append]
    omega

mutual

/-- A node without the signs of zeros and without the payloads of NaNs. -/
def canonical : Node → Node
  | null => null
  | node f kids lists => node { f with float := f.float.canonical } (canonicalAll kids) (canonicalLists lists)

def canonicalAll : List Node → List Node
  | [] => []
  | n :: ns => canonical n :: canonicalAll ns

def canonicalLists : List (List Node) → List (List Node)
  | [] => []
  | ns :: rest => canonicalAll ns :: canonicalLists rest

end

theorem wholeItem_inj {n m : Int} (h : wholeItem n = wholeItem m) : n = m := by
  unfold wholeItem at h
  split at h <;> split at h <;> simp only [Item.nint.injEq, Item.uint.injEq, reduceCtorEq] at h <;> omega

theorem textItem_inj {s t : String} (h : textItem s = textItem t) : s = t := by
  simpa [textItem, Text.bytes_inj] using h

theorem floatItem_inj {x y : Single} (hx : x.isZero = false) (hy : y.isZero = false)
    (h : floatItem x = floatItem y) : x.canonical = y.canonical := by
  unfold floatItem at h
  cases hHalf : x.toHalf? with
  | none =>
    cases hHalf' : y.toHalf? with
    | none =>
      rw [hHalf, hHalf'] at h
      cases x
      cases y
      cases h
      rfl
    | some => simp [hHalf, hHalf'] at h
  | some p =>
    cases hHalf' : y.toHalf? with
    | none => simp [hHalf, hHalf'] at h
    | some p' =>
      simp only [hHalf, hHalf', Item.half.injEq] at h
      exact Single.canonical_eq_of_toHalf? hx hy hHalf (h ▸ hHalf')

/-- A field that is left out where it is zero tells its value. -/
theorem present_inj {α : Type} [DecidableEq α] {zero : α} {item : α → Item} {a b : α}
    (hItem : ∀ {a b}, item a = item b → a = b)
    (h : (if (a == zero) = false then some (item a) else none) =
      if (b == zero) = false then some (item b) else none) : a = b := by
  by_cases ha : a = zero <;> by_cases hb : b = zero
  · rw [ha, hb]
  · simp [ha, hb] at h
  · simp [ha, hb] at h
  · exact hItem (by simpa [ha, hb] using h)

theorem present_cases {zero zero' : Bool} {item item' : Item}
    (h : (if zero = false then some item else none) = if zero' = false then some item' else none) :
    (zero = true ∧ zero' = true) ∨ (zero = false ∧ zero' = false ∧ item = item') := by
  cases zero <;> cases zero' <;> simp_all

/-- The fields of a node tell its values. -/
theorem fields_inj {f g : NodeFields} {kids kids' : List Node}
    (h : fieldItems f ++ present kids.isEmpty 12 (.array (toItems kids)) ++ present lists.isEmpty 13
      (.array (toLists lists)) = fieldItems g ++ present kids'.isEmpty 12 (.array (toItems kids')) ++
        present lists'.isEmpty 13 (.array (toLists lists'))) :
    { f with float := f.float.canonical } = { g with float := g.float.canonical } ∧
      toItems kids = toItems kids' ∧ toLists lists = toLists lists' := by
  have hAt := fun key => congrArg (List.lookup key) h
  simp only [fieldItems, lookup_append, lookup_present] at hAt
  have hKind : f.kind = g.kind := textItem_inj (by simpa using hAt 1)
  have hLine : f.line = g.line := present_inj wholeItem_inj (by simpa using hAt 2)
  have hColumn : f.column = g.column := present_inj wholeItem_inj (by simpa using hAt 3)
  have hName : f.name = g.name := present_inj textItem_inj (by simpa using hAt 4)
  have hTy : f.ty = g.ty :=
    present_inj (fun h => Ty.tag_inj (Int.ofNat_inj.mp (wholeItem_inj h))) (by simpa using hAt 5)
  have hOp : f.op = g.op :=
    present_inj (fun h => Operator.code_inj (Int.ofNat_inj.mp (wholeItem_inj h))) (by simpa using hAt 6)
  have hInt : f.int = g.int :=
    present_inj (fun h => Int32.toInt_inj.mp (wholeItem_inj h)) (by simpa using hAt 7)
  have hText : f.text = g.text := present_inj textItem_inj (by simpa using hAt 9)
  have hMember : f.member = g.member := present_inj textItem_inj (by simpa using hAt 10)
  have hFlags : f.flags = g.flags :=
    present_inj (fun h => UInt8.toNat_inj.mp (Int.ofNat_inj.mp (wholeItem_inj h))) (by simpa using hAt 11)
  have hFloat : f.float.canonical = g.float.canonical := by
    obtain ⟨hZero, hZero'⟩ | ⟨hZero, hZero', hItem⟩ := present_cases (by simpa using hAt 8)
    · rw [Single.canonical, if_pos hZero, Single.canonical, if_pos hZero']
    · exact floatItem_inj hZero hZero' hItem
  have hKids : toItems kids = toItems kids' := by
    have hField := hAt 12
    cases kids with
    | nil =>
      cases kids' with
      | nil => rfl
      | cons => simp at hField
    | cons =>
      cases kids' with
      | nil => simp at hField
      | cons => simpa using hField
  have hLists : toLists lists = toLists lists' := by
    have hField := hAt 13
    cases lists with
    | nil =>
      cases lists' with
      | nil => rfl
      | cons => simp at hField
    | cons =>
      cases lists' with
      | nil => simp at hField
      | cons => simpa using hField
  refine ⟨?_, hKids, hLists⟩
  rw [hKind, hLine, hColumn, hName, hTy, hOp, hInt, hText, hMember, hFlags, hFloat]

theorem canonicalAll_inj {ms : List Node}
    (ih : ∀ n ∈ ns, ∀ m : Node, n.toItem = m.toItem → n.canonical = m.canonical)
    (h : toItems ns = toItems ms) : canonicalAll ns = canonicalAll ms := by
  induction ns generalizing ms with
  | nil =>
    cases ms with
    | nil => rfl
    | cons => cases h
  | cons n ns ihs =>
    cases ms with
    | nil => cases h
    | cons m ms =>
      obtain ⟨hHead, hRest⟩ := List.cons_eq_cons.mp h
      rw [canonicalAll, canonicalAll, ih n (by simp) m hHead, ihs (fun x hx => ih x (by simp [hx])) hRest]

theorem canonicalLists_inj
    (ih : ∀ ns ∈ lists, ∀ n ∈ ns, ∀ m : Node, n.toItem = m.toItem → n.canonical = m.canonical)
    (h : toLists lists = toLists lists') : canonicalLists lists = canonicalLists lists' := by
  induction lists generalizing lists' with
  | nil =>
    cases lists' with
    | nil => rfl
    | cons => cases h
  | cons ns rest ihs =>
    cases lists' with
    | nil => cases h
    | cons ms rest' =>
      obtain ⟨hHead, hRest⟩ := List.cons_eq_cons.mp h
      rw [canonicalLists, canonicalLists, canonicalAll_inj (ih ns (by simp)) (Item.array.inj hHead),
        ihs (fun x hx => ih x (by simp [hx])) hRest]

/-- The item of a node tells the node, but for signs of zeros and payloads of NaNs. -/
theorem canonical_inj (h : n.toItem = m.toItem) : n.canonical = m.canonical := by
  induction n generalizing m with
  | null =>
    cases m with
    | null => rfl
    | node => cases h
  | node f kids lists hKids hLists =>
    cases m with
    | null => cases h
    | node g kids' lists' =>
      obtain ⟨hFields, hKidItems, hListItems⟩ := fields_inj (entries_inj (Item.map.inj h))
      rw [canonical, canonical, hFields, canonicalAll_inj (fun n hn m hm => hKids n hn hm) hKidItems,
        canonicalLists_inj (fun ns hns n hn m hm => hLists ns hns n hn hm) hListItems]

/-- What is written of a node can be told from what follows, and tells the node, but for signs of zeros and
payloads of NaNs. -/
theorem encode_delimited (hn : n.fits = true) (hm : m.fits = true) {r s : Bytes}
    (h : n.encode ++ r = m.encode ++ s) : n.canonical = m.canonical ∧ r = s := by
  rw [encode_eq, encode_eq] at h
  obtain ⟨hItem, hRest⟩ := Item.delimited (settled_toItem hn) (settled_toItem hm) h
  exact ⟨canonical_inj hItem, hRest⟩

theorem floatItem_canonical {x : Single} (hZero : x.isZero = false) :
    floatItem x.canonical = floatItem x := by
  cases hNaN : x.isNaN with
  | true =>
    have hHalf : x.toHalf? = some 0x7e00 := by rw [Single.toHalf?, if_pos hNaN]
    rw [floatItem, Single.toHalf?_canonical hZero, hHalf, floatItem, hHalf]
  | false => rw [Single.canonical_of_number hZero hNaN]

theorem fieldItems_canonical (f : NodeFields) :
    fieldItems { f with float := f.float.canonical } = fieldItems f := by
  have hFloat : present f.float.canonical.isZero 8 (floatItem f.float.canonical) =
      present f.float.isZero 8 (floatItem f.float) := by
    rw [Single.isZero_canonical]
    cases hZero : f.float.isZero with
    | true => rfl
    | false => rw [floatItem_canonical hZero]
  simp only [fieldItems, hFloat]

theorem toItems_canonical (h : ∀ n ∈ ns, n.canonical.toItem = n.toItem) :
    toItems (canonicalAll ns) = toItems ns := by
  induction ns with
  | nil => rfl
  | cons n ns ih => rw [canonicalAll, toItems, toItems, h n (by simp), ih fun x hx => h x (by simp [hx])]

theorem toLists_canonical (h : ∀ ns ∈ lists, ∀ n ∈ ns, n.canonical.toItem = n.toItem) :
    toLists (canonicalLists lists) = toLists lists := by
  induction lists with
  | nil => rfl
  | cons ns rest ih =>
    rw [canonicalLists, toLists, toLists, toItems_canonical (h ns (by simp)),
      ih fun x hx => h x (by simp [hx])]

theorem isEmpty_canonicalAll (ns : List Node) : (canonicalAll ns).isEmpty = ns.isEmpty := by
  cases ns <;> rfl

theorem isEmpty_canonicalLists (lists : List (List Node)) :
    (canonicalLists lists).isEmpty = lists.isEmpty := by
  cases lists <;> rfl

/-- Signs of zeros and payloads of NaNs are not written. -/
theorem toItem_canonical (n : Node) : n.canonical.toItem = n.toItem := by
  induction n with
  | null => rfl
  | node f kids lists hKids hLists =>
    rw [canonical, toItem, fieldItems_canonical, isEmpty_canonicalAll, toItems_canonical hKids,
      isEmpty_canonicalLists, toLists_canonical hLists, toItem]

/-- Nodes that differ in signs of zeros and payloads of NaNs only are written alike. -/
theorem encode_eq_of_canonical (h : n.canonical = m.canonical) : n.encode = m.encode := by
  rw [encode_eq, encode_eq, ← toItem_canonical n, h, toItem_canonical m]

end Node
end Lsl
