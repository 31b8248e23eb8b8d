import Lsl.Cbor.Item
import Lsl.Proofs.Words

/-! Items as they are written. Every item starts with a head that tells its kind and how much follows, so
what is written of an item can be told from what comes after it, and no two items are written alike. -/
namespace Lsl.Cbor.Item

open List

variable {n major : Nat} {i j : Item} {r s : Bytes}

/-- The information in the shortest head with an argument. -/
def shortest (n : Nat) : Nat :=
  if n < 24 then n else if n < 0x100 then 24 else if n < 0x10000 then 25
  else if n < 0x100000000 then 26 else 27

theorem take?_append {front rest : Bytes} (h : front.length = n) :
    take? n (front ++ rest) = some (front, rest) := by
  subst h
  simp [take?]

/-- A head whose argument follows in a number of bytes. -/
theorem head?_sized {info width : Nat} (hMajor : major < 8) (hn : n < 256 ^ width)
    (hInfo : (info, width) ∈ [(24, 1), (25, 2), (26, 4), (27, 8)]) (rest : Bytes) :
    head? (UInt8.ofNat (major * 32 + info) :: (bigEndian width n ++ rest)) =
      some (⟨major, info, some n⟩, rest) := by
  simp only [mem_cons, Prod.mk.injEq, not_mem_nil, or_false] at hInfo
  have hRead : take? width (bigEndian width n ++ rest) = some (bigEndian width n, rest) :=
    take?_append (length_bigEndian width n)
  have hValue : natOfBytes (bigEndian width n) = n := by
    rw [natOfBytes_bigEndian, Nat.mod_eq_of_lt hn]
  have hByte : (UInt8.ofNat (major * 32 + info)).toNat = major * 32 + info :=
    UInt8.toNat_ofNat_of_lt' (show _ < 256 by omega)
  have hDiv : (major * 32 + info) / 32 = major := by omega
  have hMod : (major * 32 + info) % 32 = info := by omega
  unfold head?
  dsimp only
  rw [hByte, hDiv, hMod, if_neg (by omega)]
  rcases hInfo with ⟨rfl, rfl⟩ | ⟨rfl, rfl⟩ | ⟨rfl, rfl⟩ | ⟨rfl, rfl⟩
  all_goals
    simp only [hRead]
    exact congrArg (fun m => some (Head.mk major _ (some m), rest)) hValue

theorem head?_short (hMajor : major < 8) (hn : n < 24) (rest : Bytes) :
    head? (UInt8.ofNat (major * 32 + n) :: rest) = some (⟨major, n, some n⟩, rest) := by
  have hByte : (UInt8.ofNat (major * 32 + n)).toNat = major * 32 + n :=
    UInt8.toNat_ofNat_of_lt' (show _ < 256 by omega)
  have hDiv : (major * 32 + n) / 32 = major := by omega
  have hMod : (major * 32 + n) % 32 = n := by omega
  unfold head?
  dsimp only
  rw [hByte, hDiv, hMod, if_pos hn]

/-- A head is read as it is written. -/
theorem head?_head {major n : Nat} (hMajor : major < 8) (hn : n < 2 ^ 64) (rest : Bytes) :
    head? (head major n ++ rest) = some (⟨major, shortest n, some n⟩, rest) := by
  unfold head shortest
  dsimp only
  split
  next hShort => exact head?_short hMajor hShort rest
  next =>
    split
    next h => exact head?_sized hMajor h (by simp) rest
    next =>
      split
      next h => exact head?_sized hMajor h (by simp) rest
      next =>
        split
        next h => exact head?_sized hMajor h (by simp) rest
        next => exact head?_sized hMajor hn (by simp) rest

mutual

/-- The bytes of an item with all lengths given. -/
def write : Item → Bytes
  | uint n => head 0 n
  | nint n => head 1 n
  | bytes content => head 2 content.length ++ content
  | text chunks => head 3 chunks.flatten.length ++ chunks.flatten
  | array items => head 4 items.length ++ writeAll items
  | map entries => head 5 (entries.length / 2) ++ writeAll entries
  | tag number content => head 6 number ++ write content
  | simple n => head 7 n
  | half bits => UInt8.ofNat (7 * 32 + 25) :: bigEndian 2 bits.toNat
  | single bits => UInt8.ofNat (7 * 32 + 26) :: bigEndian 4 bits.toNat
  | double bits => UInt8.ofNat (7 * 32 + 27) :: bigEndian 8 bits.toNat

def writeAll : List Item → Bytes
  | [] => []
  | i :: is => write i ++ writeAll is

end

mutual

/-- Items that are written in one way: texts in one piece, entries in pairs, and numbers and lengths in the
range of a head. -/
def Settled : Item → Prop
  | uint n | nint n => n < 2 ^ 64
  | bytes content => content.length < 2 ^ 64
  | text chunks => chunks.length = 1 ∧ chunks.flatten.length < 2 ^ 64
  | array items => items.length < 2 ^ 64 ∧ SettledAll items
  | map entries => entries.length % 2 = 0 ∧ entries.length / 2 < 2 ^ 64 ∧ SettledAll entries
  | tag number content => number < 2 ^ 64 ∧ Settled content
  | simple n => n < 24
  | half _ | single _ | double _ => True

def SettledAll : List Item → Prop
  | [] => True
  | i :: is => Settled i ∧ SettledAll is

end

def headOf : Item → Head
  | uint n => ⟨0, shortest n, some n⟩
  | nint n => ⟨1, shortest n, some n⟩
  | bytes content => ⟨2, shortest content.length, some content.length⟩
  | text chunks => ⟨3, shortest chunks.flatten.length, some chunks.flatten.length⟩
  | array items => ⟨4, shortest items.length, some items.length⟩
  | map entries => ⟨5, shortest (entries.length / 2), some (entries.length / 2)⟩
  | tag number _ => ⟨6, shortest number, some number⟩
  | simple n => ⟨7, n, some n⟩
  | half bits => ⟨7, 25, some bits.toNat⟩
  | single bits => ⟨7, 26, some bits.toNat⟩
  | double bits => ⟨7, 27, some bits.toNat⟩

def contentOf : Item → Bytes
  | bytes content => content
  | text chunks => chunks.flatten
  | array items | map items => writeAll items
  | tag _ content => write content
  | _ => []

/-- What is written of an item starts with its head. -/
theorem head?_write (h : i.Settled) (rest : Bytes) :
    head? (i.write ++ rest) = some (i.headOf, i.contentOf ++ rest) := by
  cases i with
  | uint n | nint n => exact head?_head (by decide) h rest
  | bytes content =>
    rw [write, append_assoc]
    exact head?_head (by decide) h _
  | text chunks =>
    rw [write, append_assoc]
    exact head?_head (by decide) h.2 _
  | array items | tag number content =>
    rw [write, append_assoc]
    exact head?_head (by decide) h.1 _
  | map entries =>
    rw [write, append_assoc]
    exact head?_head (by decide) h.2.1 _
  | simple n =>
    have hRead := @head?_head 7 n (by decide) (Nat.lt_trans h (by decide)) rest
    rwa [shortest, if_pos (show n < 24 from h)] at hRead
  | half bits | single bits | double bits => exact head?_sized (by decide) bits.toNat_lt (by simp) rest

@[elab_as_elim, induction_eliminator]
theorem recursion {motive : Item → Prop} (uint : ∀ n, motive (uint n)) (nint : ∀ n, motive (nint n))
    (bytes : ∀ content, motive (bytes content)) (text : ∀ chunks, motive (text chunks))
    (array : ∀ items, (∀ i ∈ items, motive i) → motive (array items))
    (map : ∀ entries, (∀ i ∈ entries, motive i) → motive (map entries))
    (tag : ∀ number content, motive content → motive (tag number content))
    (simple : ∀ n, motive (simple n)) (half : ∀ bits, motive (half bits))
    (single : ∀ bits, motive (single bits)) (double : ∀ bits, motive (double bits)) (i : Item) :
    motive i := by
  apply @Item.rec motive (fun is => ∀ i ∈ is, motive i) <;> simp_all

def Delimited (i : Item) : Prop :=
  ∀ ⦃j : Item⦄, j.Settled → ∀ ⦃r s : Bytes⦄, i.write ++ r = j.write ++ s → i = j ∧ r = s

theorem writeAll_delimited {is js : List Item} (hItems : ∀ i ∈ is, i.Delimited) (hSettled : SettledAll js)
    (hLength : is.length = js.length) (h : writeAll is ++ r = writeAll js ++ s) :
    is = js ∧ r = s := by
  induction is generalizing js with
  | nil =>
    cases js with
    | nil => exact ⟨rfl, h⟩
    | cons => cases hLength
  | cons i is ih =>
    cases js with
    | nil => cases hLength
    | cons j js =>
      rw [writeAll, writeAll, append_assoc, append_assoc] at h
      obtain ⟨rfl, hRest⟩ := hItems i (by simp) hSettled.1 h
      obtain ⟨rfl, hEnd⟩ :=
        ih (fun x hx => hItems x (by simp [hx])) hSettled.2 (by simpa using hLength) hRest
      exact ⟨rfl, hEnd⟩

theorem settled_of_mem {is : List Item} (h : SettledAll is) (hi : i ∈ is) : i.Settled := by
  induction is with
  | nil => cases hi
  | cons j is ih =>
    rcases List.mem_cons.mp hi with rfl | hi
    · exact h.1
    · exact ih h.2 hi

/-- Two items that are written alike have the same head. -/
theorem headOf_eq (hi : i.Settled) (hj : j.Settled) (h : i.write ++ r = j.write ++ s) :
    i.headOf = j.headOf ∧ i.contentOf ++ r = j.contentOf ++ s := by
  have hRead := head?_write hi r
  rw [h, head?_write hj s] at hRead
  simpa using hRead.symm

/-- Items of different kinds start with different heads. -/
theorem headOf_ne (h : decide (i.headOf.major = j.headOf.major) = false) :
    i.headOf ≠ j.headOf :=
  fun hSame => of_decide_eq_false h (congrArg Head.major hSame)

/-- What is written of an item can be told from what follows, and tells the item. -/
theorem delimited (hSettled : i.Settled) : i.Delimited := by
  induction i with
  | uint n | nint n | simple n | half bits | single bits | double bits =>
    intro j hj r s h
    obtain ⟨hHead, hRest⟩ := headOf_eq hSettled hj h
    cases j <;> simp_all [headOf, contentOf, Settled, ← UInt16.toNat_inj, ← UInt32.toNat_inj,
      ← UInt64.toNat_inj] <;> omega
  | bytes content =>
    intro j hj r s h
    obtain ⟨hHead, hRest⟩ := headOf_eq hSettled hj h
    cases j with
    | bytes content' =>
      have hLength : content.length = content'.length := Option.some.inj (congrArg Head.argument hHead)
      obtain ⟨rfl, hEnd⟩ := append_inj hRest hLength
      exact ⟨rfl, hEnd⟩
    | _ => exact absurd hHead (headOf_ne rfl)
  | text chunks =>
    intro j hj r s h
    obtain ⟨hHead, hRest⟩ := headOf_eq hSettled hj h
    cases j with
    | text chunks' =>
      have hLength : chunks.flatten.length = chunks'.flatten.length :=
        Option.some.inj (congrArg Head.argument hHead)
      obtain ⟨hContent, hEnd⟩ := append_inj hRest hLength
      obtain ⟨c, rfl⟩ := List.length_eq_one_iff.mp hSettled.1
      obtain ⟨c', rfl⟩ := List.length_eq_one_iff.mp hj.1
      rw [contentOf, contentOf, flatten_singleton, flatten_singleton] at hContent
      exact ⟨by rw [hContent], hEnd⟩
    | _ => exact absurd hHead (headOf_ne rfl)
  | array items ih =>
    intro j hj r s h
    obtain ⟨hHead, hRest⟩ := headOf_eq hSettled hj h
    cases j with
    | array items' =>
      have hLength : items.length = items'.length := Option.some.inj (congrArg Head.argument hHead)
      obtain ⟨rfl, hEnd⟩ := writeAll_delimited (fun i hi => ih i hi (settled_of_mem hSettled.2 hi)) hj.2
        hLength hRest
      exact ⟨rfl, hEnd⟩
    | _ => exact absurd hHead (headOf_ne rfl)
  | map entries ih =>
    intro j hj r s h
    obtain ⟨hHead, hRest⟩ := headOf_eq hSettled hj h
    cases j with
    | map entries' =>
      have hLength : entries.length / 2 = entries'.length / 2 :=
        Option.some.inj (congrArg Head.argument hHead)
      have hPairs : entries.length % 2 = 0 := hSettled.1
      have hPairs' : entries'.length % 2 = 0 := hj.1
      obtain ⟨rfl, hEnd⟩ := writeAll_delimited
        (fun i hi => ih i hi (settled_of_mem hSettled.2.2 hi)) hj.2.2 (by omega) hRest
      exact ⟨rfl, hEnd⟩
    | _ => exact absurd hHead (headOf_ne rfl)
  | tag number content ih =>
    intro j hj r s h
    obtain ⟨hHead, hRest⟩ := headOf_eq hSettled hj h
    cases j with
    | tag number' content' =>
      obtain rfl : number = number' := Option.some.inj (congrArg Head.argument hHead)
      obtain ⟨rfl, hEnd⟩ := ih hSettled.2 hj.2 hRest
      exact ⟨rfl, hEnd⟩
    | _ => exact absurd hHead (headOf_ne rfl)

end Lsl.Cbor.Item
