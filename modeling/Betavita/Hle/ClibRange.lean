import Betavita.Hle.SceLibKernel
import Betavita.Memory.Guest

/-!
# SceLibKernel.cpp — what the memory calls write

A range inside one map should be set, or copied, whole. The test both calls make compares
an end address with the last address of the map by `<`: a range that reaches the last
byte is refused, and `sceClibMemmove`, which passes the address behind its ranges, also
refuses one that stops a byte before it. A refused call is silently dropped.
-/

namespace Betavita.Hle

open Memory

/-- `[address, address + len)` lies inside one map. -/
def RangeInMap (maps : List MemoryMap) (address len : Word) : Prop :=
  ∃ it ∈ maps, it.start ≤ address ∧ address.toNat + len.toNat ≤ it.end_.toNat + 1

/-- The bytes from `dst` on become those of `byte`, and other addresses keep theirs. -/
structure Filled (maps maps' : List MemoryMap) (dst : Word) (n : Nat) (byte : Nat → Option Byte) :
    Prop where
  inside : ∀ k < n, ∃ b, byte k = some b ∧ loadByte maps' (dst + BitVec.ofNat 32 k) = some b
  outside : ∀ a, (∀ k < n, a ≠ dst + BitVec.ofNat 32 k) → loadByte maps' a = loadByte maps a

/-- The call sets the whole range to `ch mod 256`. -/
def MemsetFills (maps : List MemoryMap) (dst ch len : Word) : Prop :=
  ∃ maps' r, sceClibMemset maps dst ch len = .ok (maps', r) ∧
    Filled maps maps' dst len.toNat fun _ => some (ch.setWidth 8)

/-- The call copies the whole range, from the bytes as they were before it. -/
def MemmoveFills (maps : List MemoryMap) (dst src len : Word) : Prop :=
  ∃ maps' r, sceClibMemmove maps dst src len = .ok (maps', r) ∧
    Filled maps maps' dst len.toNat fun k => loadByte maps (src + BitVec.ofNat 32 k)

/-- Ranges inside maps are set and copied. -/
def ClibFills (maps : List MemoryMap) (dst src ch len : Word) : Prop :=
  len ≠ 0 → RangeInMap maps dst len →
    MemsetFills maps dst ch len ∧ (RangeInMap maps src len → MemmoveFills maps dst src len)

/-! ## The ranges that pass the test -/

/-- The range stops before the last byte of its map, which is not the whole address space. -/
def MemsetPasses (maps : List MemoryMap) (address len : Word) : Prop :=
  ∃ it ∈ maps, it.start ≤ address ∧ address.toNat + len.toNat ≤ it.end_.toNat ∧ it.size ≠ 0

/-- The range stops two bytes before the end of its map, or the address behind it wraps
to zero. -/
def MemmovePasses (maps : List MemoryMap) (address len : Word) : Prop :=
  ∃ it ∈ maps, it.start ≤ address ∧ it.size ≠ 0 ∧
    (address.toNat + len.toNat < it.end_.toNat ∨
      address.toNat + len.toNat = 2 ^ 32 ∧ it.end_ = 0xFFFFFFFF#32)

section Range

variable {maps : List MemoryMap} {address len : Word}

/-- A range in a map that has a buffer lies in the buffer of its pointer. -/
theorem inBuffer_of_range (hapart : maps.Pairwise MemoryMap.Apart) {it : MemoryMap}
    (hmem : it ∈ maps) (hlo : it.start ≤ address)
    (hhi : address.toNat + len.toNat ≤ it.end_.toNat + 1) (hlen : len ≠ 0) (hsize : it.size ≠ 0) :
    ∃ p, getPointerUnchecked maps address = some p ∧ InBuffer maps p len.toNat := by
  have hpos : 0 < len.toNat := toNat_pos_iff.mpr hlen
  have hc : it.Covers address := ⟨hlo, by bv_omega⟩
  obtain ⟨i, hi, hget⟩ := List.getElem_of_mem hmem
  have hit : maps[i]? = some it := by rw [List.getElem?_eq_getElem hi, hget]
  exact ⟨_, getPointerUnchecked_of_apart hapart hit hc, it, hit,
    .inr (MemoryMap.range_le_data_length hpos hlo hhi hsize)⟩

/-- A map that has a byte at one of its addresses has a buffer. -/
theorem size_ne_zero_of_loadByte (hapart : maps.Pairwise MemoryMap.Apart) {it : MemoryMap}
    (hmem : it ∈ maps) (hc : it.Covers address) (h : ∃ b, loadByte maps address = some b) :
    it.size ≠ 0 := by
  obtain ⟨i, hi, hget⟩ := List.getElem_of_mem hmem
  have hit : maps[i]? = some it := by rw [List.getElem?_eq_getElem hi, hget]
  obtain ⟨b, hb⟩ := h
  rw [loadByte, getPointerUnchecked_of_apart hapart hit hc, Option.bind_some, byteAt, hit,
    Option.bind_some] at hb
  have hlt := (List.getElem?_eq_some_iff.mp hb).1
  rw [it.data_length] at hlt
  intro hzero
  rw [hzero] at hlt
  exact absurd hlt (Nat.not_lt_zero _)

theorem loadByte_of_rangeInBuffer (h : RangeInBuffer maps address len.toNat) (hlen : len ≠ 0) :
    ∃ b, loadByte maps address = some b := by
  obtain ⟨p, it, hp, hit, hlt⟩ := h 0 (toNat_pos_iff.mpr hlen)
  refine ⟨it.data[p.offset], ?_⟩
  rw [getPointer] at hp
  rw [loadByte, hp, Option.bind_some, byteAt, hit, Option.bind_some, List.getElem?_eq_getElem]

/-- The end that `sceClibMemset` passes is the last address of the range. -/
theorem memset_valid_iff (h : RangeInMap maps address len) (hlen : len ≠ 0) :
    isValidAddressRange maps address (address + len - 1) = true ↔
      ∃ it ∈ maps, it.start ≤ address ∧ address.toNat + len.toNat ≤ it.end_.toNat := by
  obtain ⟨it, _, _, hhi⟩ := h
  rw [isValidAddressRange_iff]
  refine exists_congr fun m => and_congr_right fun _ => and_congr_right fun _ => ?_
  constructor <;> intro hlt <;> bv_omega

/-- The end that `sceClibMemmove` passes is the address behind the range. -/
theorem memmove_valid_iff (h : RangeInMap maps address len) :
    isValidAddressRange maps address (address + len) = true ↔
      ∃ it ∈ maps, it.start ≤ address ∧ (address.toNat + len.toNat < it.end_.toNat ∨
        address.toNat + len.toNat = 2 ^ 32 ∧ it.end_ = 0xFFFFFFFF#32) := by
  obtain ⟨it, hmem, hlo, hhi⟩ := h
  have hend := it.end_.isLt
  rw [isValidAddressRange_iff]
  constructor
  · rintro ⟨m, hm, hmlo, hmhi⟩
    rcases Nat.lt_or_ge (address.toNat + len.toNat) (2 ^ 32) with hlt | hge
    · exact ⟨m, hm, hmlo, .inl (by bv_omega)⟩
    · exact ⟨it, hmem, hlo, .inr ⟨by omega, by bv_omega⟩⟩
  · rintro ⟨m, hm, hmlo, hlt | ⟨htop, hmax⟩⟩
    · exact ⟨m, hm, hmlo, by bv_omega⟩
    · exact ⟨m, hm, hmlo, by bv_omega⟩

end Range

/-! ## The calls -/

section Calls

variable {maps : List MemoryMap} {dst src ch len : Word}

theorem sceClibMemset_refused
    (h : ¬ isValidAddressRange maps dst (dst + len - 1) = true) :
    sceClibMemset maps dst ch len = .ok (maps, dst) := if_neg h

/-- A call that passes the test fills a range that lies in a buffer. -/
theorem memsetFills_of_inBuffer (hapart : maps.Pairwise MemoryMap.Apart)
    (hvalid : isValidAddressRange maps dst (dst + len - 1) = true) {p : HostPtr}
    (hp : getPointerUnchecked maps dst = some p) (hin : InBuffer maps p len.toNat) :
    MemsetFills maps dst ch len := by
  have hlength : (List.replicate len.toNat (ch.setWidth 8 : Byte)).length = len.toNat :=
    List.length_replicate
  obtain ⟨maps', hwrite⟩ := writeBytes_isOk_iff.mpr (hlength.symm ▸ hin)
  refine ⟨maps', dst, ?_, fun k hk => ⟨_, rfl, ?_⟩, fun a ha => ?_⟩
  · rw [sceClibMemset, if_pos hvalid, hp]
    show (writeBytes maps p _ >>= _) = _
    rw [hwrite]
    rfl
  · rw [loadByte_writeBytes hapart hp hwrite (hlength.symm ▸ hk), List.getElem_replicate]
  · exact loadByte_writeBytes_of_ne hp hwrite (hlength.symm ▸ ha)

/-- `sceClibMemset` fills a range in a map exactly when the range passes the test, or
holds the byte already. -/
theorem memsetFills_iff (hapart : maps.Pairwise MemoryMap.Apart)
    (hrange : RangeInMap maps dst len) (hlen : len ≠ 0) :
    MemsetFills maps dst ch len ↔ MemsetPasses maps dst len ∨
      ∀ k < len.toNat, loadByte maps (dst + BitVec.ofNat 32 k) = some (ch.setWidth 8) := by
  by_cases hvalid : isValidAddressRange maps dst (dst + len - 1) = true
  · obtain ⟨it, hmem, hlo, hhi⟩ := (memset_valid_iff hrange hlen).mp hvalid
    have hc : it.Covers dst := ⟨hlo, by bv_omega⟩
    have hpasses : (∃ b, loadByte maps dst = some b) → MemsetPasses maps dst len :=
      fun hb => ⟨it, hmem, hlo, hhi, size_ne_zero_of_loadByte hapart hmem hc hb⟩
    have hfills : MemsetPasses maps dst len → MemsetFills maps dst ch len := by
      rintro ⟨m, hm, hmlo, hmhi, hsize⟩
      obtain ⟨p, hp, hin⟩ := inBuffer_of_range hapart hm hmlo (by omega) hlen hsize
      exact memsetFills_of_inBuffer hapart hvalid hp hin
    constructor
    · rintro ⟨maps', r, hok, _⟩
      have hbuf := sceClibMemset_isOk_iff.mp ⟨_, hok⟩ hvalid
      exact .inl (hpasses (loadByte_of_rangeInBuffer hbuf hlen))
    · rintro (h | hheld)
      · exact hfills h
      · have hfirst := hheld 0 (toNat_pos_iff.mpr hlen)
        rw [BitVec.add_zero] at hfirst
        exact hfills (hpasses ⟨_, hfirst⟩)
  · constructor
    · rintro ⟨maps', r, hok, hfilled⟩
      rw [sceClibMemset_refused hvalid] at hok
      cases hok
      refine .inr fun k hk => ?_
      obtain ⟨b, hb, hload⟩ := hfilled.inside k hk
      rw [hload, hb]
    · rintro (⟨m, hm, hmlo, hmhi, _⟩ | hheld)
      · exact absurd ((memset_valid_iff hrange hlen).mpr ⟨m, hm, hmlo, hmhi⟩) hvalid
      · exact ⟨maps, dst, sceClibMemset_refused hvalid, fun k hk => ⟨_, rfl, hheld k hk⟩,
          fun _ _ => rfl⟩

theorem sceClibMemmove_refused
    (h : ¬ (isValidAddressRange maps dst (dst + len) = true ∧
      isValidAddressRange maps src (src + len) = true)) :
    sceClibMemmove maps dst src len = .ok (maps, dst) := by
  rw [sceClibMemmove]
  exact if_neg fun hboth => h (Bool.and_eq_true_iff.mp hboth)

/-- A call that passes the tests copies a range that lies in a buffer to one that does. -/
theorem memmoveFills_of_inBuffer (hapart : maps.Pairwise MemoryMap.Apart)
    (hdst : isValidAddressRange maps dst (dst + len) = true)
    (hsrc : isValidAddressRange maps src (src + len) = true) {p q : HostPtr}
    (hp : getPointerUnchecked maps dst = some p) (hin : InBuffer maps p len.toNat)
    (hq : getPointerUnchecked maps src = some q) (hin' : InBuffer maps q len.toNat) :
    MemmoveFills maps dst src len := by
  obtain ⟨bytes, hread⟩ := readBytes_isOk_iff.mpr hin'
  have hlength := readBytes_length hread
  obtain ⟨maps', hwrite⟩ := writeBytes_isOk_iff.mpr (hlength.symm ▸ hin)
  refine ⟨maps', dst, ?_, fun k hk => ?_, fun a ha => ?_⟩
  · rw [sceClibMemmove, hdst, hsrc, getPointer, getPointer, hp, hq]
    show ((readBytes maps q len.toNat >>= fun bytes => writeBytes maps p bytes) >>= _) = _
    rw [hread, ok_bind, hwrite]
    rfl
  · have hk' : k < bytes.length := hlength.symm ▸ hk
    refine ⟨bytes[k], ?_, loadByte_writeBytes hapart hp hwrite hk'⟩
    rw [loadByte_add hapart hq hin' hk, ← readBytes_getElem? hread hk,
      List.getElem?_eq_getElem hk']
  · exact loadByte_writeBytes_of_ne hp hwrite (hlength.symm ▸ ha)

/-- A range that passes the test is in a map, which has a buffer if there is a byte. -/
theorem memmovePasses_of_valid (hapart : maps.Pairwise MemoryMap.Apart) (hlen : len ≠ 0)
    {address : Word} (hrange : RangeInMap maps address len)
    (hvalid : isValidAddressRange maps address (address + len) = true)
    (hb : ∃ b, loadByte maps address = some b) : MemmovePasses maps address len := by
  obtain ⟨it, hmem, hlo, hhi⟩ := (memmove_valid_iff hrange).mp hvalid
  have hpos := toNat_pos_iff.mpr hlen
  have hc : it.Covers address := ⟨hlo, by
    rcases hhi with hlt | ⟨_, hmax⟩
    · bv_omega
    · rw [hmax]; bv_omega⟩
  exact ⟨it, hmem, hlo, size_ne_zero_of_loadByte hapart hmem hc hb, hhi⟩

theorem MemmovePasses.inBuffer (hapart : maps.Pairwise MemoryMap.Apart) (hlen : len ≠ 0)
    {address : Word} (h : MemmovePasses maps address len) :
    ∃ p, getPointerUnchecked maps address = some p ∧ InBuffer maps p len.toNat := by
  obtain ⟨it, hmem, hlo, hsize, hhi⟩ := h
  have hend : address.toNat + len.toNat ≤ it.end_.toNat + 1 := by
    rcases hhi with hlt | ⟨htop, hmax⟩
    · omega
    · rw [htop, hmax]
      decide
  exact inBuffer_of_range hapart hmem hlo hend hlen hsize

/-- `sceClibMemmove` copies a range in a map to one exactly when both pass the test, or
hold the same bytes already. -/
theorem memmoveFills_iff (hapart : maps.Pairwise MemoryMap.Apart)
    (hdst : RangeInMap maps dst len) (hsrc : RangeInMap maps src len) (hlen : len ≠ 0) :
    MemmoveFills maps dst src len ↔ MemmovePasses maps dst len ∧ MemmovePasses maps src len ∨
      ∀ k < len.toNat, ∃ b, loadByte maps (src + BitVec.ofNat 32 k) = some b ∧
        loadByte maps (dst + BitVec.ofNat 32 k) = some b := by
  by_cases hvalid : isValidAddressRange maps dst (dst + len) = true ∧
      isValidAddressRange maps src (src + len) = true
  · have hfills : MemmovePasses maps dst len → MemmovePasses maps src len →
        MemmoveFills maps dst src len := by
      intro hd hs
      obtain ⟨p, hp, hin⟩ := hd.inBuffer hapart hlen
      obtain ⟨q, hq, hin'⟩ := hs.inBuffer hapart hlen
      exact memmoveFills_of_inBuffer hapart hvalid.1 hvalid.2 hp hin hq hin'
    constructor
    · rintro ⟨maps', r, hok, _⟩
      obtain ⟨hd, hs⟩ := sceClibMemmove_isOk_iff.mp ⟨_, hok⟩ hvalid.1 hvalid.2
      exact .inl
        ⟨memmovePasses_of_valid hapart hlen hdst hvalid.1 (loadByte_of_rangeInBuffer hd hlen),
          memmovePasses_of_valid hapart hlen hsrc hvalid.2 (loadByte_of_rangeInBuffer hs hlen)⟩
    · rintro (⟨hd, hs⟩ | hheld)
      · exact hfills hd hs
      · obtain ⟨b, hb, hb'⟩ := hheld 0 (toNat_pos_iff.mpr hlen)
        rw [BitVec.add_zero] at hb hb'
        exact hfills (memmovePasses_of_valid hapart hlen hdst hvalid.1 ⟨b, hb'⟩)
          (memmovePasses_of_valid hapart hlen hsrc hvalid.2 ⟨b, hb⟩)
  · constructor
    · rintro ⟨maps', r, hok, hfilled⟩
      rw [sceClibMemmove_refused hvalid] at hok
      cases hok
      exact .inr hfilled.inside
    · rintro (⟨⟨m, hm, hmlo, _, hmhi⟩, m', hm', hmlo', _, hmhi'⟩ | hheld)
      · exact absurd ⟨(memmove_valid_iff hdst).mpr ⟨m, hm, hmlo, hmhi⟩,
          (memmove_valid_iff hsrc).mpr ⟨m', hm', hmlo', hmhi'⟩⟩ hvalid
      · exact ⟨maps, dst, sceClibMemmove_refused hvalid, hheld, fun _ _ => rfl⟩

end Calls

/-- The calls do their work on ranges inside maps exactly when the ranges stay clear of the
last bytes, as `MemsetPasses` and `MemmovePasses` say, or there is nothing to be done. -/
theorem clibFills_iff {maps : List MemoryMap} (hapart : maps.Pairwise MemoryMap.Apart)
    (dst src ch len : Word) :
    ClibFills maps dst src ch len ↔ (len ≠ 0 → RangeInMap maps dst len →
      (MemsetPasses maps dst len ∨
        ∀ k < len.toNat, loadByte maps (dst + BitVec.ofNat 32 k) = some (ch.setWidth 8)) ∧
      (RangeInMap maps src len → MemmovePasses maps dst len ∧ MemmovePasses maps src len ∨
        ∀ k < len.toNat, ∃ b, loadByte maps (src + BitVec.ofNat 32 k) = some b ∧
          loadByte maps (dst + BitVec.ofNat 32 k) = some b)) := by
  refine forall_congr' fun hlen => forall_congr' fun hdst => ?_
  rw [memsetFills_iff hapart hdst hlen]
  exact and_congr_right fun _ => forall_congr' fun hsrc => memmoveFills_iff hapart hdst hsrc hlen

theorem clibFills_iff_onePage :
    ClibFills onePage 0x60000000#32 0x60000008#32 0xFF#32 0x10#32 := by
  refine (clibFills_iff onePage_laid.apart 0x60000000#32 0x60000008#32 0xFF#32 0x10#32).mpr
    fun _ _ => ⟨.inl ?_, fun _ => .inl ⟨?_, ?_⟩⟩
  · exact ⟨_, List.mem_singleton_self _, by decide, by decide, by decide⟩
  · exact ⟨_, List.mem_singleton_self _, by decide, by decide, .inl (by decide)⟩
  · exact ⟨_, List.mem_singleton_self _, by decide, by decide, .inl (by decide)⟩

/-- The last sixteen bytes of a page cannot be set. -/
theorem sceClibMemset_drops :
    ¬ ClibFills onePage 0x60000FF0#32 0x60000000#32 0xFF#32 0x10#32 := by
  intro h
  have hrange : RangeInMap onePage 0x60000FF0#32 0x10#32 :=
    ⟨_, List.mem_singleton_self _, by decide, by decide⟩
  have hfills : MemsetFills onePage 0x60000FF0#32 0xFF#32 0x10#32 := (h (by decide) hrange).1
  rcases (memsetFills_iff onePage_laid.apart hrange (by decide)).mp hfills with hpasses | hheld
  · obtain ⟨it, hmem, _, hhi, _⟩ := hpasses
    cases List.mem_singleton.mp hmem
    exact absurd hhi (by decide)
  · have hzero : loadByte onePage 0x60000FF0#32 = some 0 := by
      rw [loadByte, show getPointerUnchecked onePage 0x60000FF0#32 = some ⟨0, 0xFF0⟩ by decide]
      exact List.getElem?_replicate_of_lt (by decide)
    exact absurd (hzero.symm.trans (hheld 0 (by decide))) (by decide)

end Betavita.Hle
