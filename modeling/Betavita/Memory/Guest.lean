import Betavita.Memory.Access

/-!
# Guest areas

The loader follows tables of guest memory by host pointers, while an image is described
by guest addresses. An area is a guest address and a length; this module relates the
areas to the buffers their host pointers point into.
-/

namespace Betavita.Memory

open ByteBuffer

/-- The two areas have no address in common. -/
def AreasApart (a : Word) (n : Nat) (b : Word) (m : Nat) : Prop :=
  ∀ i < n, ∀ j < m, a + BitVec.ofNat 32 i ≠ b + BitVec.ofNat 32 j

instance (a : Word) (n : Nat) (b : Word) (m : Nat) : Decidable (AreasApart a n b m) :=
  inferInstanceAs (Decidable (∀ i < n, ∀ j < m, _))

theorem AreasApart.symm {a b : Word} {n m : Nat} (h : AreasApart a n b m) : AreasApart b m a n :=
  fun j hj i hi => (h i hi j hj).symm

/-- A `const char *` read as a string: up to the first zero, which has to be in the buffer. -/
def readCString (maps : List MemoryMap) (p : Option HostPtr) : Except Trap (List Byte) :=
  match p with
  | none => .error .nullAccess
  | some p =>
    match maps[p.map]? with
    | none => .error .outOfBounds
    | some it =>
      match terminated 0 (it.data.drop p.offset) with
      | none => .error .outOfBounds
      | some s => .ok s

/-- The word at a guest address, if the host can read it there. -/
def loadWord (maps : List MemoryMap) (address : Word) : Option Word :=
  (getPointerUnchecked maps address).bind fun p => (readWord maps p).toOption

/-- The string at a guest address. -/
def loadCString (maps : List MemoryMap) (address : Word) : Option (List Byte) :=
  (readCString maps (getPointerUnchecked maps address)).toOption

theorem toOption_eq_some {ε α : Type} {x : Except ε α} {a : α} :
    x.toOption = some a ↔ x = .ok a := by
  cases x <;> simp [Except.toOption]

/-! ## Pointers into areas -/

/-- The area of a pointer's run stays in its map, address by address. -/
theorem getPointerUnchecked_add {maps : List MemoryMap} (hapart : maps.Pairwise MemoryMap.Apart)
    {a : Word} {p : HostPtr} {n i : Nat} (hp : getPointerUnchecked maps a = some p)
    (hin : InBuffer maps p n) (hi : i < n) :
    getPointerUnchecked maps (a + BitVec.ofNat 32 i) = some (p.add i) := by
  obtain ⟨it, hit, ⟨hs, he⟩, hoff, _⟩ := getPointerUnchecked_eq_some.mp hp
  obtain ⟨it', hit', hfits⟩ := hin
  rw [hit] at hit'
  cases hit'
  have hlen : p.offset + n ≤ ((it.end_ - it.start) + 1#32).toNat := by
    have hbuf := hfits.resolve_left (by omega)
    rw [it.data_length, it.size_eq] at hbuf
    exact hbuf
  -- the buffer is not empty, so its size did not wrap and the area ends in the map
  have hcov : it.Covers (a + BitVec.ofNat 32 i) := by
    constructor <;> bv_omega
  rw [getPointerUnchecked_of_apart hapart hit hcov]
  have hadd : (a + BitVec.ofNat 32 i - it.start).toNat = p.offset + i := by bv_omega
  rw [hadd]
  rfl

/-- Areas without a common address have no byte in common. -/
theorem AreasApart.clear {maps : List MemoryMap} {a b : Word} {p q : HostPtr} {n m : Nat}
    (h : AreasApart a n b m) (hp : getPointerUnchecked maps a = some p)
    (hq : getPointerUnchecked maps b = some q) (hn : 0 < n) (hm : 0 < m) : p.Clear n q m := by
  obtain ⟨it, hit, _, hoff, _⟩ := getPointerUnchecked_eq_some.mp hp
  obtain ⟨it', hit', _, hoff', _⟩ := getPointerUnchecked_eq_some.mp hq
  by_contra hno
  simp only [HostPtr.Clear, not_or, Decidable.not_not, Nat.not_le] at hno
  obtain ⟨hmap, hpq, hqp⟩ := hno
  rw [hmap, hit'] at hit
  cases hit
  -- the later of the two pointers is in both runs
  rcases Nat.le_total p.offset q.offset with hle | hle
  · exact h (q.offset - p.offset) (by omega) 0 hm (by bv_omega)
  · exact h 0 hn (p.offset - q.offset) (by omega) (by bv_omega)

/-- The bytes of a pointer's run by their guest addresses. -/
theorem loadByte_add {maps : List MemoryMap} (hapart : maps.Pairwise MemoryMap.Apart)
    {a : Word} {p : HostPtr} {n i : Nat} (hp : getPointerUnchecked maps a = some p)
    (hin : InBuffer maps p n) (hi : i < n) :
    loadByte maps (a + BitVec.ofNat 32 i) = byteAt maps (p.add i) := by
  rw [loadByte, getPointerUnchecked_add hapart hp hin hi, Option.bind_some]

/-- After a write the addresses behind the pointer's hold the bytes that were written. -/
theorem loadByte_writeBytes {maps maps' : List MemoryMap}
    (hapart : maps.Pairwise MemoryMap.Apart) {a : Word} {p : HostPtr} {bytes : List Byte} {i : Nat}
    (hp : getPointerUnchecked maps a = some p) (h : writeBytes maps p bytes = .ok maps')
    (hi : i < bytes.length) : loadByte maps' (a + BitVec.ofNat 32 i) = some bytes[i] := by
  have hsame := writeBytes_sameMaps h
  have hin := hsame.inBuffer (writeBytes_isOk_iff.mp ⟨maps', h⟩)
  have hread := readBytes_getElem? (readBytes_writeBytes_self h) hi
  rw [loadByte_add (hsame.apart hapart) ((hsame.getPointerUnchecked a).symm.trans hp) hin hi,
    ← hread, List.getElem?_eq_getElem hi]

/-- Every other address keeps its byte. -/
theorem loadByte_writeBytes_of_ne {maps maps' : List MemoryMap} {a b : Word} {p : HostPtr}
    {bytes : List Byte} (hp : getPointerUnchecked maps a = some p)
    (h : writeBytes maps p bytes = .ok maps')
    (hne : ∀ i < bytes.length, b ≠ a + BitVec.ofNat 32 i) : loadByte maps' b = loadByte maps b := by
  rw [loadByte, loadByte, ← (writeBytes_sameMaps h).getPointerUnchecked]
  cases hq : getPointerUnchecked maps b with
  | none => rfl
  | some q =>
    rw [Option.bind_some, Option.bind_some, writeBytes_byteAt_clear h]
    rcases Nat.eq_zero_or_pos bytes.length with hzero | hpos
    · by_cases hmap : q.map = p.map
      · exact .inr (by omega)
      · exact .inl hmap
    · have hareas : AreasApart b 1 a bytes.length := by
        intro i hi j hj
        obtain rfl : i = 0 := by omega
        rw [BitVec.add_zero]
        exact hne j hj
      exact hareas.clear hq hp (by decide) hpos

/-! ## Reads from bytes that are kept -/

section Congr

variable {maps maps' : List MemoryMap} {p : HostPtr}

theorem readWord_congr (hsame : SameMaps maps maps')
    (h : ∀ i < 4, byteAt maps' (p.add i) = byteAt maps (p.add i)) :
    readWord maps' p = readWord maps p := by
  rw [readWord, readWord, readBytes_congr hsame h]

theorem readHalf_congr (hsame : SameMaps maps maps')
    (h : ∀ i < 2, byteAt maps' (p.add i) = byteAt maps (p.add i)) :
    readHalf maps' p = readHalf maps p := by
  rw [readHalf, readHalf, readBytes_congr hsame h]

/-- What it means for a string to be at a pointer, byte by byte. -/
theorem readCString_ok {s : List Byte} :
    readCString maps (some p) = .ok s ↔ 0 ∉ s ∧
      (∀ i < s.length, byteAt maps (p.add i) = s[i]?) ∧ byteAt maps (p.add s.length) = some 0 := by
  cases hit : maps[p.map]? with
  | none => simp [readCString, byteAt, HostPtr.add, hit]
  | some it =>
    have hbyte : ∀ i, byteAt maps (p.add i) = (it.data.drop p.offset)[i]? := by
      intro i
      rw [List.getElem?_drop]
      simp [byteAt, HostPtr.add, hit]
    simp only [hbyte, ← terminated_eq_some, readCString, hit]
    cases terminated 0 (it.data.drop p.offset) <;> simp

/-- A string can be read where a zero follows in the buffer. -/
theorem readCString_isOk_iff :
    (∃ s, readCString maps (some p) = .ok s) ↔ ∃ n, byteAt maps (p.add n) = some 0 := by
  constructor
  · rintro ⟨s, hs⟩
    exact ⟨s.length, (readCString_ok.mp hs).2.2⟩
  · rintro ⟨n, hn⟩
    cases hit : maps[p.map]? with
    | none => simp [byteAt, HostPtr.add, hit] at hn
    | some it =>
      have hmem : 0 ∈ it.data.drop p.offset := by
        refine List.mem_of_getElem? (i := n) ?_
        rw [List.getElem?_drop]
        simpa [byteAt, HostPtr.add, hit] using hn
      obtain ⟨s, hs⟩ := Option.isSome_iff_exists.mp (terminated_isSome_iff.mpr hmem)
      exact ⟨s, by simp only [readCString, hit, hs]⟩

theorem readCString_congr {s : List Byte} (hs : readCString maps (some p) = .ok s)
    (h : ∀ i < s.length + 1, byteAt maps' (p.add i) = byteAt maps (p.add i)) :
    readCString maps' (some p) = .ok s := by
  obtain ⟨hns, hchars, hzero⟩ := readCString_ok.mp hs
  exact readCString_ok.mpr ⟨hns, fun i hi => (h i (by omega)).trans (hchars i hi),
    (h s.length (by omega)).trans hzero⟩

end Congr

/-- A word in a run of a pointer is the word at its guest address. -/
theorem loadWord_add {maps : List MemoryMap} (hapart : maps.Pairwise MemoryMap.Apart)
    {a w : Word} {p : HostPtr} {i : Nat} (hp : getPointerUnchecked maps a = some p)
    (hw : readWord maps (p.add i) = .ok w) : loadWord maps (a + BitVec.ofNat 32 i) = some w := by
  have hin : InBuffer maps p (i + 4) := by
    obtain ⟨it, hit, hfits⟩ := readWord_isOk_iff.mp ⟨w, hw⟩
    have hbuf : p.offset + i + 4 ≤ it.data.length := hfits.resolve_left (by decide)
    exact ⟨it, hit, .inr (by omega)⟩
  rw [loadWord, getPointerUnchecked_add hapart hp hin (by omega), Option.bind_some, hw]
  rfl

end Betavita.Memory
