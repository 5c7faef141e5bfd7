import Betavita.Memory.Access

/-!
# SceLibKernel.cpp — the checked memory calls

`sceClibMemset` and `sceClibMemmove` test their ranges with
`is_valid_address_range` and then access host memory. The test sees only the two
end points, with a 32-bit end; this module says exactly when passing it keeps the
access inside the buffer the pointer was resolved to.
-/

namespace Betavita.Hle

open Memory

/-- `sceClibMemset`. -/
def sceClibMemset (maps : List MemoryMap) (dstAddr ch len : Word) :
    Except Trap (List MemoryMap × Word) :=
  if isValidAddressRange maps dstAddr (dstAddr + len - 1) then do
    let maps' ← hostMemset maps (getPointerUnchecked maps dstAddr) (ch.setWidth 8) len.toNat
    return (maps', dstAddr)
  else .ok (maps, dstAddr)

/-- `sceClibMemmove`. -/
def sceClibMemmove (maps : List MemoryMap) (dstAddr srcAddr len : Word) :
    Except Trap (List MemoryMap × Word) :=
  let validDstAddress := isValidAddressRange maps dstAddr (dstAddr + len)
  let validSrcAddress := isValidAddressRange maps srcAddr (srcAddr + len)
  if validDstAddress && validSrcAddress then do
    let maps' ← hostMemmove maps (getPointer maps dstAddr) (getPointer maps srcAddr) len.toNat
    return (maps', dstAddr)
  else .ok (maps, dstAddr)

/-! ## The bytes an access touches -/

/-- Byte `k` behind the pointer for `address` lies in the buffer of the map that
`get_pointer` resolves `address` to. -/
def ByteInBuffer (maps : List MemoryMap) (address : Word) (k : Nat) : Prop :=
  ∃ p it, getPointer maps address = some p ∧ maps[p.map]? = some it ∧
    p.offset + k < it.data.length

/-- All `n` bytes behind the pointer for `address` do. -/
def RangeInBuffer (maps : List MemoryMap) (address : Word) (n : Nat) : Prop :=
  ∀ k < n, ByteInBuffer maps address k

/-- If the test lets `sceClibMemset` pass, it writes inside the buffer. -/
def MemsetInBuffer (maps : List MemoryMap) (dst len : Word) : Prop :=
  isValidAddressRange maps dst (dst + len - 1) = true → RangeInBuffer maps dst len.toNat

/-- If the tests let `sceClibMemmove` pass, it reads and writes inside the buffers. -/
def MemmoveInBuffer (maps : List MemoryMap) (dst src len : Word) : Prop :=
  isValidAddressRange maps dst (dst + len) = true →
  isValidAddressRange maps src (src + len) = true →
    RangeInBuffer maps dst len.toNat ∧ RangeInBuffer maps src len.toNat

theorem rangeInBuffer_of_none {maps : List MemoryMap} {address : Word} {n : Nat}
    (hp : getPointer maps address = none) : RangeInBuffer maps address n ↔ n = 0 := by
  constructor
  · intro h
    rcases Nat.eq_zero_or_pos n with hz | hpos
    · exact hz
    · obtain ⟨p, _, hsome, _⟩ := h 0 hpos
      rw [hp] at hsome
      cases hsome
  · rintro rfl k hk
    omega

theorem rangeInBuffer_of_some {maps : List MemoryMap} {address : Word} {n : Nat} {p : HostPtr}
    (hp : getPointer maps address = some p) :
    RangeInBuffer maps address n ↔ InBuffer maps p n := by
  constructor
  · intro h
    obtain ⟨it, hit, _⟩ := getPointerUnchecked_eq_some.mp hp
    rcases Nat.eq_zero_or_pos n with hz | hpos
    · exact ⟨it, hit, .inl hz⟩
    · obtain ⟨q, it', hq, hit', hlt⟩ := h (n - 1) (by omega)
      obtain rfl : p = q := Option.some.inj (hp.symm.trans hq)
      exact ⟨it', hit', .inr (by omega)⟩
  · rintro ⟨it, hit, hf⟩ k hk
    rcases hf with rfl | hf
    · omega
    · exact ⟨p, it, hp, hit, by omega⟩

/-- Without overlaps, the pointer for `address` has `n > 0` bytes ahead of it in
its buffer exactly when a map of nonzero size holds the range. -/
theorem rangeInBuffer_iff_map {maps : List MemoryMap} (h : Laid maps) {address : Word} {n : Nat}
    (hn : 0 < n) :
    RangeInBuffer maps address n ↔
      ∃ it ∈ maps, it.start ≤ address ∧ address.toNat + n ≤ it.end_.toNat + 1 ∧ it.size ≠ 0 := by
  constructor
  · intro h'
    obtain ⟨p, _, hp, _⟩ := h' 0 hn
    obtain ⟨it, hit, hf⟩ := (rangeInBuffer_of_some hp).mp h'
    obtain ⟨it', hit', hc, hoff, _⟩ := getPointerUnchecked_eq_some.mp hp
    obtain rfl : it' = it := Option.some.inj (hit'.symm.trans hit)
    have hmem := List.mem_of_getElem? hit
    have hord := h.ordered it' hmem
    have hlen := MemoryMap.buffer_length hord
    have hsize := it'.data_length
    have hfit : p.offset + n ≤ it'.data.length := hf.resolve_left (by omega)
    obtain ⟨hlo, hhi⟩ := hc
    refine ⟨it', hmem, hlo, ?_, ?_⟩
    · rw [hoff, hlen] at hfit
      bv_omega
    · intro hzero
      rw [hzero] at hsize
      simp only [BitVec.ofNat_eq_ofNat, BitVec.toNat_ofNat, Nat.zero_mod] at hsize
      omega
  · rintro ⟨it, hmem, hlo, hhi, hsize⟩
    have hc : it.Covers address := ⟨hlo, by bv_omega⟩
    obtain ⟨i, hi, hget⟩ := List.getElem_of_mem hmem
    have hit : maps[i]? = some it := by rw [List.getElem?_eq_getElem hi, hget]
    exact (rangeInBuffer_of_some (h.getPointerUnchecked hit hc)).mpr
      ⟨it, hit, .inr (MemoryMap.range_le_data_length hn hlo hhi hsize)⟩

/-- A map of size zero is the whole address space, so it is the only one. -/
theorem size_ne_zero_of_mem {maps : List MemoryMap} (h : Laid maps) {it : MemoryMap}
    (hmem : it ∈ maps) (hsize : it.size ≠ 0) : ∀ m ∈ maps, m.size ≠ 0 := by
  intro m hm hz
  have hne : it ≠ m := fun he => hsize (he ▸ hz)
  have hap := Intervals.apart_of_mem h.apart hmem hm hne
  obtain ⟨hs, he⟩ := (MemoryMap.size_eq_zero_iff (h.ordered m hm)).mp hz
  have hord := h.ordered it hmem
  rcases (MemoryMap.apart_iff hord (h.ordered m hm)).mp hap with hlt | hlt
  · rw [hs] at hlt
    simp at hlt
  · rw [he] at hlt
    bv_omega

/-! ## When the accesses stay inside -/

/-- No map is the whole address space, whose 32-bit size is zero. -/
def NoEmptyBuffer (maps : List MemoryMap) : Prop := ∀ it ∈ maps, it.size ≠ 0

/-- The range does not wrap around the address space. -/
def MemsetFits (maps : List MemoryMap) (dst len : Word) : Prop :=
  isValidAddressRange maps dst (dst + len - 1) = true → len ≠ 0 →
    dst.toNat + len.toNat ≤ 2 ^ 32 ∧ NoEmptyBuffer maps

/-- The exclusive end `address + len` does not wrap, or it is `2 ^ 32` and the map
at `address` reaches to the top. -/
def EndFits (maps : List MemoryMap) (address len : Word) : Prop :=
  address.toNat + len.toNat < 2 ^ 32 ∨
    address.toNat + len.toNat = 2 ^ 32 ∧
      ∃ it ∈ maps, it.start ≤ address ∧ it.end_ = 0xFFFFFFFF#32

def MemmoveFits (maps : List MemoryMap) (dst src len : Word) : Prop :=
  isValidAddressRange maps dst (dst + len) = true →
  isValidAddressRange maps src (src + len) = true → len ≠ 0 →
    EndFits maps dst len ∧ EndFits maps src len ∧ NoEmptyBuffer maps

theorem toNat_pos_iff {len : Word} : 0 < len.toNat ↔ len ≠ 0 := by
  constructor
  · rintro h rfl
    simp at h
  · intro h
    bv_omega

theorem memsetInBuffer_iff {maps : List MemoryMap} (h : Laid maps) (dst len : Word) :
    MemsetInBuffer maps dst len ↔ MemsetFits maps dst len := by
  refine forall_congr' fun hvalid => ?_
  constructor
  · intro hr hlen
    obtain ⟨it, hmem, _, hhi, hsize⟩ :=
      (rangeInBuffer_iff_map h (toNat_pos_iff.mpr hlen)).mp hr
    have hend := it.end_.isLt
    exact ⟨by omega, size_ne_zero_of_mem h hmem hsize⟩
  · intro hf
    by_cases hlen : len = 0
    · subst hlen
      intro k hk
      simp at hk
    · obtain ⟨hnowrap, hsize⟩ := hf hlen
      obtain ⟨it, hmem, hlo, hhi⟩ := isValidAddressRange_iff.mp hvalid
      exact (rangeInBuffer_iff_map h (toNat_pos_iff.mpr hlen)).mpr
        ⟨it, hmem, hlo, by bv_omega, hsize it hmem⟩

theorem rangeInBuffer_iff_endFits {maps : List MemoryMap} (h : Laid maps) {address len : Word}
    (hvalid : isValidAddressRange maps address (address + len) = true) (hlen : len ≠ 0) :
    RangeInBuffer maps address len.toNat ↔ EndFits maps address len ∧ NoEmptyBuffer maps := by
  rw [rangeInBuffer_iff_map h (toNat_pos_iff.mpr hlen)]
  constructor
  · rintro ⟨it, hmem, hlo, hhi, hsize⟩
    refine ⟨?_, size_ne_zero_of_mem h hmem hsize⟩
    rcases Nat.lt_or_ge (address.toNat + len.toNat) (2 ^ 32) with hlt | hge
    · exact .inl hlt
    · have hend := it.end_.isLt
      exact .inr ⟨by omega, it, hmem, hlo, by bv_omega⟩
  · rintro ⟨hnowrap | ⟨htop, it, hmem, hlo, hend⟩, hsize⟩
    · obtain ⟨it, hmem, hlo, hhi⟩ := isValidAddressRange_iff.mp hvalid
      exact ⟨it, hmem, hlo, by bv_omega, hsize it hmem⟩
    · refine ⟨it, hmem, hlo, ?_, hsize it hmem⟩
      rw [htop, hend]
      rfl

theorem memmoveInBuffer_iff {maps : List MemoryMap} (h : Laid maps) (dst src len : Word) :
    MemmoveInBuffer maps dst src len ↔ MemmoveFits maps dst src len := by
  refine forall_congr' fun hdst => forall_congr' fun hsrc => ?_
  by_cases hlen : len = 0
  · subst hlen
    simp [RangeInBuffer]
  · rw [rangeInBuffer_iff_endFits h hdst hlen, rangeInBuffer_iff_endFits h hsrc hlen]
    constructor
    · rintro ⟨⟨hd, hsize⟩, hs, _⟩ _
      exact ⟨hd, hs, hsize⟩
    · intro hf
      obtain ⟨hd, hs, hsize⟩ := hf hlen
      exact ⟨⟨hd, hsize⟩, hs, hsize⟩

/-! ## The calls themselves -/

theorem hostMemcpy_isOk_iff {maps : List MemoryMap} {address : Word} {src : List Byte} :
    (∃ maps', hostMemcpy maps (getPointerUnchecked maps address) src = .ok maps') ↔
      RangeInBuffer maps address src.length := by
  cases hp : getPointerUnchecked maps address with
  | none =>
    rw [rangeInBuffer_of_none hp]
    by_cases hz : src = [] <;> simp [hostMemcpy, hz]
  | some p => rw [hostMemcpy, writeBytes_isOk_iff, rangeInBuffer_of_some hp]

/-- `sceClibMemset` has a defined result exactly when it stays inside its buffer. -/
theorem sceClibMemset_isOk_iff {maps : List MemoryMap} {dst ch len : Word} :
    (∃ r, sceClibMemset maps dst ch len = .ok r) ↔ MemsetInBuffer maps dst len := by
  unfold sceClibMemset MemsetInBuffer
  split
  · rename_i hvalid
    have hcpy : (∃ maps', hostMemcpy maps (getPointerUnchecked maps dst)
        (List.replicate len.toNat (ch.setWidth 8)) = .ok maps') ↔
          RangeInBuffer maps dst len.toNat := by
      rw [hostMemcpy_isOk_iff, List.length_replicate]
    simp only [hvalid, true_imp_iff, ← hcpy, hostMemset]
    exact exists_bind_ok
  · rename_i hinvalid
    exact ⟨fun _ h => absurd h hinvalid, fun _ => ⟨_, rfl⟩⟩

theorem hostMemmove_isOk_iff {maps : List MemoryMap} {dst src : Word} {n : Nat} :
    (∃ maps', hostMemmove maps (getPointer maps dst) (getPointer maps src) n = .ok maps') ↔
      RangeInBuffer maps dst n ∧ RangeInBuffer maps src n := by
  cases hp : getPointer maps src with
  | none =>
    rw [rangeInBuffer_of_none hp]
    by_cases hz : n = 0
    · simp [hostMemmove, hz, RangeInBuffer]
    · simp [hostMemmove, hz]
  | some p =>
    rw [rangeInBuffer_of_some hp, ← readBytes_isOk_iff, hostMemmove]
    constructor
    · rintro ⟨maps', hm⟩
      obtain ⟨bytes, hread, hwrite⟩ := bind_ok.mp hm
      have hdst := hostMemcpy_isOk_iff.mp ⟨maps', hwrite⟩
      rw [readBytes_length hread] at hdst
      exact ⟨hdst, bytes, hread⟩
    · rintro ⟨hdst, bytes, hread⟩
      rw [← readBytes_length hread] at hdst
      obtain ⟨maps', hwrite⟩ := hostMemcpy_isOk_iff.mpr hdst
      exact ⟨maps', bind_ok.mpr ⟨bytes, hread, hwrite⟩⟩

/-- `sceClibMemmove` has a defined result exactly when it stays inside its buffers. -/
theorem sceClibMemmove_isOk_iff {maps : List MemoryMap} {dst src len : Word} :
    (∃ r, sceClibMemmove maps dst src len = .ok r) ↔ MemmoveInBuffer maps dst src len := by
  unfold sceClibMemmove MemmoveInBuffer
  by_cases hd : isValidAddressRange maps dst (dst + len) = true
  · by_cases hs : isValidAddressRange maps src (src + len) = true
    · simp only [hd, hs, Bool.and_self, if_true, true_imp_iff, ← hostMemmove_isOk_iff]
      exact exists_bind_ok
    · simp [hd, hs]
  · simp [hd]

/-- The checked calls stay inside the buffers of the maps their pointers resolve to
exactly when no range wraps around the address space and no map has an empty
buffer; and they have a defined result exactly when they stay inside. -/
theorem sceClib_inBuffer_iff {maps : List MemoryMap} (h : Laid maps) (dst src ch len : Word) :
    (MemsetInBuffer maps dst len ↔ MemsetFits maps dst len) ∧
    (MemmoveInBuffer maps dst src len ↔ MemmoveFits maps dst src len) ∧
    ((∃ r, sceClibMemset maps dst ch len = .ok r) ↔ MemsetInBuffer maps dst len) ∧
    ((∃ r, sceClibMemmove maps dst src len = .ok r) ↔ MemmoveInBuffer maps dst src len) :=
  ⟨memsetInBuffer_iff h dst len, memmoveInBuffer_iff h dst src len, sceClibMemset_isOk_iff,
    sceClibMemmove_isOk_iff⟩

/-- One page of heap, as `map_memory` lays it out. -/
def onePage : List MemoryMap := mapMemory [] "heap" 0x60000000#32 0x60000FFF#32 3#8

theorem onePage_laid : Laid onePage :=
  Laid.nil.mapMemory (by decide) (by simp)

theorem sceClib_inBuffer_iff_onePage :
    (MemsetInBuffer onePage 0x60000000#32 0x10#32 ↔ MemsetFits onePage 0x60000000#32 0x10#32) ∧
    (MemmoveInBuffer onePage 0x60000000#32 0x60000800#32 0x10#32 ↔
      MemmoveFits onePage 0x60000000#32 0x60000800#32 0x10#32) :=
  ⟨(sceClib_inBuffer_iff onePage_laid 0x60000000#32 0 0 0x10#32).1,
    (sceClib_inBuffer_iff onePage_laid 0x60000000#32 0x60000800#32 0 0x10#32).2.1⟩

/-- The 32-bit end of this range wraps to `0x5FFFFFFF`, which the test accepts. -/
theorem sceClibMemset_leaves_buffer :
    Laid onePage ∧ ¬ MemsetInBuffer onePage 0x60000100#32 0xFFFFFF00#32 ∧
      ¬ ∃ r, sceClibMemset onePage 0x60000100#32 0#32 0xFFFFFF00#32 = .ok r := by
  have hout : ¬ MemsetInBuffer onePage 0x60000100#32 0xFFFFFF00#32 := by
    rw [memsetInBuffer_iff onePage_laid]
    intro h
    have hnowrap := (h (by decide) (by decide)).1
    simp at hnowrap
  exact ⟨onePage_laid, hout, fun h => hout (sceClibMemset_isOk_iff.mp h)⟩

end Betavita.Hle
