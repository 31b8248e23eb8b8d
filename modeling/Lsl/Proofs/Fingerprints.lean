import Lsl.Fingerprint
import Lsl.Proofs.LibraryTables
import Lsl.Proofs.StoredTrees

/-! What a fingerprint is made of. Each part is written after a mark and in a fixed width or with its length
in front, so what is digested gives back the library, and of the other inputs all but what the stored form
of a tree leaves open. -/
namespace Lsl

open List

theorem bigEndian_inj {width n m : Nat} (hn : n < 256 ^ width) (hm : m < 256 ^ width)
    (h : bigEndian width n = bigEndian width m) : n = m := by
  have hRead := congrArg natOfBytes h
  rwa [natOfBytes_bigEndian, natOfBytes_bigEndian, Nat.mod_eq_of_lt hn, Nat.mod_eq_of_lt hm] at hRead

@[simp] theorem Sha256.length_digest (message : Bytes) : (Sha256.digest message).length = 32 := by
  simp [Sha256.digest]

namespace Fingerprint

variable {r s : Bytes}

def wholeFits (n : Int) : Bool := -2 ^ 63 ≤ n ∧ n < 2 ^ 63

def functionFits (f : LibraryFunction) : Bool :=
  (Text.bytes f.name).length < 2 ^ 32 ∧ f.params.length < 2 ^ 32 ∧ wholeFits f.index

theorem count_delimited {n m : Nat} (hn : n < 2 ^ 32) (hm : m < 2 ^ 32) (h : count n ++ r = count m ++ s) :
    n = m ∧ r = s := by
  obtain ⟨hCount, hRest⟩ := append_inj h (by simp [count])
  exact ⟨bigEndian_inj hn hm hCount, hRest⟩

theorem sized_delimited {bs cs : Bytes} (hb : bs.length < 2 ^ 32) (hc : cs.length < 2 ^ 32)
    (h : sized bs ++ r = sized cs ++ s) : bs = cs ∧ r = s := by
  rw [sized, sized, append_assoc, append_assoc] at h
  obtain ⟨hLength, hRest⟩ := count_delimited hb hc h
  exact append_inj hRest hLength

theorem flag_inj {a b : Bool} (h : flag a = flag b) : a = b := by
  revert a b
  decide

theorem flag_delimited {a b : Bool} (h : flag a ++ r = flag b ++ s) : a = b ∧ r = s := by
  obtain ⟨hFlag, hRest⟩ := append_inj h rfl
  exact ⟨flag_inj hFlag, hRest⟩

theorem whole_inj {n m : Int} (hn : wholeFits n = true) (hm : wholeFits m = true)
    (h : whole n = whole m) : n = m := by
  simp only [wholeFits, decide_eq_true_eq] at hn hm
  have hSame : (n % 0x10000000000000000).toNat = (m % 0x10000000000000000).toNat :=
    bigEndian_inj (show (n % 0x10000000000000000).toNat < _ by omega)
      (show (m % 0x10000000000000000).toNat < _ by omega) h
  omega

theorem whole_delimited {n m : Int} (hn : wholeFits n = true) (hm : wholeFits m = true)
    (h : whole n ++ r = whole m ++ s) : n = m ∧ r = s := by
  obtain ⟨hWhole, hRest⟩ := append_inj h (by simp [whole])
  exact ⟨whole_inj hn hm hWhole, hRest⟩

theorem type_inj {t u : Ty} (h : type t = type u) : t = u := by
  have hTag := congrArg UInt8.toNat h
  rw [type, type, UInt8.toNat_ofNat', UInt8.toNat_ofNat', Nat.mod_eq_of_lt t.tag_lt,
    Nat.mod_eq_of_lt u.tag_lt] at hTag
  exact Ty.tag_inj hTag

/-- A library function ends where it says. -/
theorem function_delimited {f g : LibraryFunction} (hf : functionFits f = true) (hg : functionFits g = true)
    (h : function f ++ r = function g ++ s) : f = g ∧ r = s := by
  simp only [functionFits, decide_eq_true_eq] at hf hg
  simp only [function, cons_append, append_assoc, List.cons.injEq, true_and] at h
  obtain ⟨hName, hRest⟩ := sized_delimited hf.1 hg.1 h
  obtain ⟨hResult, hRest⟩ := List.cons.inj hRest
  obtain ⟨hCount, hRest⟩ := count_delimited hf.2.1 hg.2.1 hRest
  obtain ⟨hParams, hRest⟩ := append_inj hRest (by rw [length_map, length_map, hCount])
  obtain ⟨hPrivileged, hRest⟩ := flag_delimited hRest
  obtain ⟨hIndex, hEnd⟩ := whole_delimited hf.2.2 hg.2.2 hRest
  have hTypes := (map_inj_right fun _ _ => type_inj).mp hParams
  cases f
  cases g
  cases Text.bytes_inj.mp hName
  cases type_inj hResult
  cases hTypes
  cases hPrivileged
  cases hIndex
  exact ⟨rfl, hEnd⟩

theorem functions_inj {fs gs : List LibraryFunction} (hf : fs.all functionFits = true)
    (hg : gs.all functionFits = true) (h : fs.flatMap function = gs.flatMap function) : fs = gs := by
  induction fs generalizing gs with
  | nil =>
    cases gs with
    | nil => rfl
    | cons g gs => cases h
  | cons f fs ih =>
    cases gs with
    | nil => cases h
    | cons g gs =>
      obtain ⟨hHead, hTail⟩ := Bool.and_eq_true_iff.mp hf
      obtain ⟨hHead', hTail'⟩ := Bool.and_eq_true_iff.mp hg
      obtain ⟨rfl, hRest⟩ := function_delimited hHead hHead' h
      rw [ih hTail hTail' hRest]

/-- What is digested of a library gives the library back. -/
theorem library_inj {l l' : Library} (hl : l.functions.all functionFits = true)
    (hl' : l'.functions.all functionFits = true) (h : library l = library l') : l = l' := by
  simp only [library, cons_append, List.cons.injEq, true_and] at h
  obtain ⟨-, hFunctions⟩ := append_inj h (by simp [count])
  exact congrArg Library.mk (functions_inj hl hl' hFunctions)

/-- A stored tree ends where its content says, whatever the length in front of it. -/
theorem sized_encode_delimited {n m : Node} (hn : n.fits = true) (hm : m.fits = true)
    (h : sized n.encode ++ r = sized m.encode ++ s) : n.canonical = m.canonical ∧ r = s := by
  rw [sized, sized, append_assoc, append_assoc] at h
  exact Node.encode_delimited hn hm (append_inj h (by simp [count])).2

section Inputs

variable {d d' : Bytes} {p p' : Bool} {b b' : String} {k k' : Int}

/-- What follows the tree gives back all else that a compile depends on. -/
theorem inputs_rest_inj (hd : d.length = 32) (hd' : d'.length = 32)
    (hb : (Text.bytes b).length < 2 ^ 32) (hb' : (Text.bytes b').length < 2 ^ 32)
    (hk : wholeFits k = true) (hk' : wholeFits k' = true)
    (h : libraryMark :: (sized d ++ privilegedMark :: (flag p ++ backendMark :: (sized (Text.bytes b) ++
        memoryMark :: whole k))) =
      libraryMark :: (sized d' ++ privilegedMark :: (flag p' ++ backendMark :: (sized (Text.bytes b') ++
        memoryMark :: whole k')))) :
    d = d' ∧ p = p' ∧ b = b' ∧ k = k' := by
  obtain ⟨hDigest, hRest⟩ := sized_delimited (by omega) (by omega) (List.cons.inj h).2
  obtain ⟨hPrivileged, hRest⟩ := flag_delimited (List.cons.inj hRest).2
  obtain ⟨hBackend, hRest⟩ := sized_delimited hb hb' (List.cons.inj hRest).2
  exact ⟨hDigest, hPrivileged, Text.bytes_inj.mp hBackend, whole_inj hk hk' (List.cons.inj hRest).2⟩

/-- What is digested for a compile gives back all but the signs of zeros and the payloads of NaNs. -/
theorem inputs_inj {n m : Node}
    (hn : n.fits = true) (hm : m.fits = true) (hd : d.length = 32) (hd' : d'.length = 32)
    (hb : (Text.bytes b).length < 2 ^ 32) (hb' : (Text.bytes b').length < 2 ^ 32)
    (hk : wholeFits k = true) (hk' : wholeFits k' = true)
    (h : inputs n.encode d p b k = inputs m.encode d' p' b' k') :
    n.canonical = m.canonical ∧ d = d' ∧ p = p' ∧ b = b' ∧ k = k' := by
  simp only [inputs, cons_append, append_assoc, List.cons.injEq, true_and] at h
  obtain ⟨hTree, hRest⟩ := sized_encode_delimited hn hm h
  exact ⟨hTree, inputs_rest_inj hd hd' hb hb' hk hk' hRest⟩

/-- What is digested is unambiguous. That of a library gives back each function of a table that calls have
left, and that of a compile gives back the stored tree, the digest of the library and the options. -/
theorem streams_inj :
    (∀ fs gs : List LibraryFunction,
      (∀ f ∈ (Library.ofCalls fs).functions ++ (Library.ofCalls gs).functions,
        (Text.bytes f.name).length < 2 ^ 32 ∧ f.params.length < 2 ^ 32) →
      library (Library.ofCalls fs) = library (Library.ofCalls gs) →
      (Library.ofCalls fs).functions = (Library.ofCalls gs).functions) ∧
    ∀ (s s' : Script) (l l' : Library) (p p' : Bool) (b b' : String) (k k' : Int),
      s.encode.length < 2 ^ 32 ∧ s'.encode.length < 2 ^ 32 →
      (Text.bytes b).length < 2 ^ 32 ∧ (Text.bytes b').length < 2 ^ 32 →
      (-2 ^ 63 ≤ k ∧ k < 2 ^ 63) ∧ -2 ^ 63 ≤ k' ∧ k' < 2 ^ 63 →
      inputs s.encode l.fingerprint p b k = inputs s'.encode l'.fingerprint p' b' k' →
      s.encode = s'.encode ∧ l.fingerprint = l'.fingerprint ∧ p = p' ∧ b = b' ∧ k = k' := by
  constructor
  · intro fs gs hShort h
    have hFits : ∀ f ∈ (Library.ofCalls fs).functions ++ (Library.ofCalls gs).functions,
        functionFits f = true := by
      intro f hf
      have hRange : 0 ≤ f.index ∧ f.index ≤ 0xffff := (List.mem_append.mp hf).elim
        ((Library.proper_ofCalls fs).range f) ((Library.proper_ofCalls gs).range f)
      have hShort := hShort f hf
      simp only [functionFits, wholeFits, decide_eq_true_eq]
      omega
    rw [library_inj (List.all_eq_true.mpr fun f hf => hFits f (by simp [hf]))
      (List.all_eq_true.mpr fun f hf => hFits f (by simp [hf])) h]
  · intro s s' l l' p p' b b' k k' hTree hBackend hMemory h
    simp only [inputs, cons_append, append_assoc, List.cons.injEq, true_and] at h
    obtain ⟨hTree, hRest⟩ := sized_delimited hTree.1 hTree.2 h
    exact ⟨hTree, inputs_rest_inj (Sha256.length_digest _) (Sha256.length_digest _) hBackend.1 hBackend.2
      (by simpa [wholeFits] using hMemory.1) (by simpa [wholeFits] using hMemory.2) hRest⟩

/-- Two functions, added in either order, and a script that is stored beside them. -/
theorem streams_inj_orders : ∃ (f g : LibraryFunction) (s : Script), f.name ≠ g.name ∧
    s.encode.length = 13 ∧
    library (Library.ofCalls [f, g]) = library (Library.ofCalls [g, f]) ∧
    (Library.ofCalls [f, g]).functions = (Library.ofCalls [g, f]).functions ∧
    inputs s.encode (Library.ofCalls [f, g]).fingerprint false "il" 0 =
      inputs s.encode (Library.ofCalls [g, f]).fingerprint false "il" 0 ∧
    (Library.ofCalls [f, g]).fingerprint = (Library.ofCalls [g, f]).fingerprint := by
  let f : LibraryFunction := ⟨"llSay", .void, [.integer, .string], false, 1⟩
  let g : LibraryFunction := ⟨"llKey", .key, [], true, 0⟩
  let s : Script := { pos := {}, globals := [], states := [] }
  have hLength : s.encode.length = 13 := by decide +kernel
  have hStream : library (Library.ofCalls [f, g]) = library (Library.ofCalls [g, f]) := by decide +kernel
  have hInputs : inputs s.encode (Library.ofCalls [f, g]).fingerprint false "il" 0 =
      inputs s.encode (Library.ofCalls [g, f]).fingerprint false "il" 0 := by
    rw [Library.fingerprint, Library.fingerprint, hStream]
  have hDigest := streams_inj.2 s s _ _ _ _ _ _ _ _ ⟨by omega, by omega⟩ ⟨by decide, by decide⟩
    ⟨by decide, by decide⟩ hInputs
  exact ⟨f, g, s, by decide, hLength, hStream, streams_inj.1 [f, g] [g, f] (by decide +kernel) hStream,
    hInputs, hDigest.2.1⟩

end Inputs

end Fingerprint
end Lsl
