import Betavita.Lib.ByteBuffer
import Betavita.Lib.Intervals
import Betavita.Lib.Paging
import Betavita.Lib.UnstableSort

/-!
# memory.cpp — the map list

`memory_map_list` is a `List MemoryMap`, kept by `mapMemory` in the order of the
inclusive end addresses. A map owns its host buffer: `data` is what `fast_access`
points to, so a host pointer is a position in the list and an offset into that
map's buffer (`HostPtr`).
-/

namespace Betavita

abbrev Byte := BitVec 8
abbrev Half := BitVec 16
abbrev Word := BitVec 32

namespace Memory

/-- `ProtectionType`, a set of the three flags below. -/
abbrev ProtectionType := BitVec 8

def PROTECTION_TYPE_READ : ProtectionType := 1#8 <<< 0
def PROTECTION_TYPE_WRITE : ProtectionType := 1#8 <<< 1
def PROTECTION_TYPE_EXECUTE : ProtectionType := 1#8 <<< 2

/-- One entry of `memory_map_list`. The two last fields are what `map_memory`, the
only place that builds an entry, establishes: the size is that of the inclusive
range modulo `2 ^ 32`, and the buffer has that many bytes. -/
structure MemoryMap where
  name : String
  start : Word
  end_ : Word
  size : Word
  protection : ProtectionType
  data : List Byte
  size_eq : size = (end_ - start) + 1
  data_length : data.length = size.toNat
deriving DecidableEq

/-- `address >= it->start && address <= it->end`. -/
def MemoryMap.Covers (it : MemoryMap) (address : Word) : Prop :=
  it.start ≤ address ∧ address ≤ it.end_

instance (it : MemoryMap) (address : Word) : Decidable (it.Covers address) :=
  inferInstanceAs (Decidable (_ ∧ _))

/-- The fresh map that `map_memory` fills in: a zeroed buffer of `size` bytes. -/
def MemoryMap.fresh (name : String) (start end_ : Word) (protection : ProtectionType) :
    MemoryMap where
  name := name
  start := start
  end_ := end_
  size := (end_ - start) + 1
  protection := protection
  data := List.replicate ((end_ - start) + 1).toNat 0
  size_eq := rfl
  data_length := List.length_replicate

/-- `map_memory`: append the new map, then sort by end address. `std::sort` leaves the order
of equal ends open: this is the outcome in which they keep their insertion order, and the only
one where the new range meets no map (`eq_mapMemory_of_perm`). What may differ between the
outcomes is stated with `MapsTo`, which has them all. -/
def mapMemory (memoryMapList : List MemoryMap) (name : String) (start end_ : Word)
    (protection : ProtectionType) : List MemoryMap :=
  (memoryMapList ++ [MemoryMap.fresh name start end_ protection]).insertionSort
    (fun a b => a.end_ ≤ b.end_)

/-- A pointer into the buffer of the map at position `map`. -/
structure HostPtr where
  map : Nat
  offset : Nat
deriving DecidableEq, Repr

/-- `get_pointer_unchecked`: the first map of the list that covers the address. -/
def getPointerUnchecked : List MemoryMap → Word → Option HostPtr
  | [], _ => none
  | it :: rest, address =>
    if it.Covers address then some ⟨0, (address - it.start).toNat⟩
    else (getPointerUnchecked rest address).map fun p => ⟨p.map + 1, p.offset⟩

/-- `get_pointer` only adds a log line. -/
def getPointer (memoryMapList : List MemoryMap) (address : Word) : Option HostPtr :=
  getPointerUnchecked memoryMapList address

/-- `is_valid_address_range`. -/
def isValidAddressRange (memoryMapList : List MemoryMap) (start end_ : Word) : Bool :=
  memoryMapList.any fun i => decide (start ≥ i.start) && decide (end_ < i.end_)

/-! ## What the list operations do -/

/-- The bounds of a map as numbers; its addresses are `Intervals.span lo hi`. -/
def MemoryMap.lo (it : MemoryMap) : Nat := it.start.toNat
def MemoryMap.hi (it : MemoryMap) : Nat := it.end_.toNat

theorem MemoryMap.hi_lt (it : MemoryMap) : it.hi < 2 ^ 32 := it.end_.isLt

/-- The two maps have no common address. -/
abbrev MemoryMap.Apart (a b : MemoryMap) : Prop := Intervals.Apart MemoryMap.lo MemoryMap.hi a b

/-- A map list without overlaps or inverted maps. -/
structure Laid (maps : List MemoryMap) : Prop where
  ordered : ∀ it ∈ maps, it.start ≤ it.end_
  apart : maps.Pairwise MemoryMap.Apart

theorem MemoryMap.covers_iff {it : MemoryMap} {address : Word} :
    it.Covers address ↔ address.toNat ∈ Intervals.span MemoryMap.lo MemoryMap.hi it := Iff.rfl

theorem MemoryMap.apart_iff {a b : MemoryMap} (ha : a.start ≤ a.end_) (hb : b.start ≤ b.end_) :
    a.Apart b ↔ a.end_.toNat < b.start.toNat ∨ b.end_.toNat < a.start.toNat :=
  Intervals.apart_iff ha hb

/-- Maps without a common address are apart. -/
theorem MemoryMap.apart_of_not_covers {a b : MemoryMap}
    (h : ∀ address, a.Covers address → ¬ b.Covers address) : a.Apart b := by
  refine Set.disjoint_left.mpr fun n ha hb => ?_
  have hn : (BitVec.ofNat 32 n).toNat = n := by
    rw [BitVec.toNat_ofNat]
    exact Nat.mod_eq_of_lt (lt_of_le_of_lt ha.2 a.hi_lt)
  exact h (BitVec.ofNat 32 n) (MemoryMap.covers_iff.mpr (hn.symm ▸ ha))
    (MemoryMap.covers_iff.mpr (hn.symm ▸ hb))

/-- Apart from the range of the whole address space, a map's buffer has one byte
for each of its addresses. -/
theorem MemoryMap.buffer_length {it : MemoryMap} (h : it.start ≤ it.end_) :
    it.data.length = (it.end_.toNat - it.start.toNat + 1) % 2 ^ 32 := by
  rw [it.data_length, it.size_eq]
  bv_omega

theorem MemoryMap.size_eq_zero_iff {it : MemoryMap} (h : it.start ≤ it.end_) :
    it.size = 0 ↔ it.start = 0 ∧ it.end_ = 0xFFFFFFFF#32 := by
  rw [it.size_eq]
  constructor
  · intro hz
    constructor <;> bv_omega
  · rintro ⟨hs, he⟩
    rw [hs, he]
    rfl

/-- A range in a map of nonzero size lies in the buffer of the map. -/
theorem MemoryMap.range_le_data_length {it : MemoryMap} {address : Word} {n : Nat} (hn : 0 < n)
    (hlo : it.start ≤ address) (hhi : address.toNat + n ≤ it.end_.toNat + 1) (hsize : it.size ≠ 0) :
    (address - it.start).toNat + n ≤ it.data.length := by
  have hord : it.start ≤ it.end_ := BitVec.le_trans hlo (by bv_omega)
  have hfull : ¬ (it.start = 0 ∧ it.end_ = 0xFFFFFFFF#32) :=
    fun hf => hsize ((MemoryMap.size_eq_zero_iff hord).mpr hf)
  rw [MemoryMap.buffer_length hord]
  bv_omega

theorem mapMemory_perm (maps : List MemoryMap) (name : String) (start end_ : Word)
    (protection : ProtectionType) :
    (mapMemory maps name start end_ protection).Perm
      (.fresh name start end_ protection :: maps) :=
  (List.perm_insertionSort _ _).trans (List.perm_append_singleton _ _)

instance : Std.Total (fun a b : MemoryMap => a.end_ ≤ b.end_) :=
  ⟨fun a b => BitVec.le_total a.end_ b.end_⟩

instance : IsTrans MemoryMap (fun a b => a.end_ ≤ b.end_) :=
  ⟨fun _ _ _ => BitVec.le_trans⟩

/-- After any `map_memory` the list is in the order of the end addresses. -/
theorem mapMemory_sorted (maps : List MemoryMap) (name : String) (start end_ : Word)
    (protection : ProtectionType) :
    (mapMemory maps name start end_ protection).Pairwise (fun a b => a.hi ≤ b.hi) :=
  List.pairwise_insertionSort _ _

theorem Laid.nil : Laid [] := ⟨by simp, .nil⟩

theorem Laid.of_perm {maps maps' : List MemoryMap} (h : Laid maps) (hp : maps.Perm maps') :
    Laid maps' :=
  ⟨fun it hit => h.ordered it (hp.mem_iff.mpr hit), hp.pairwise h.apart fun hab => hab.symm⟩

theorem Laid.cons {maps : List MemoryMap} {it : MemoryMap} (h : Laid maps)
    (ho : it.start ≤ it.end_) (ha : ∀ m ∈ maps, it.Apart m) : Laid (it :: maps) := by
  refine ⟨?_, List.pairwise_cons.mpr ⟨ha, h.apart⟩⟩
  intro m hm
  rcases List.mem_cons.mp hm with rfl | hm
  · exact ho
  · exact h.ordered m hm

/-- Mapping a range that meets no map keeps the list without overlaps. -/
theorem Laid.mapMemory {maps : List MemoryMap} (h : Laid maps) {name : String}
    {start end_ : Word} {protection : ProtectionType} (ho : start ≤ end_)
    (ha : ∀ m ∈ maps, (MemoryMap.fresh name start end_ protection).Apart m) :
    Laid (mapMemory maps name start end_ protection) :=
  (h.cons ho ha).of_perm (mapMemory_perm ..).symm

/-- Mapping a range that meets no map leaves `std::sort` no choice: every order of
the maps by end address is this one. -/
theorem eq_mapMemory_of_perm {maps sorted : List MemoryMap} (h : Laid maps) {name : String}
    {start end_ : Word} {protection : ProtectionType} (ho : start ≤ end_)
    (ha : ∀ m ∈ maps, (MemoryMap.fresh name start end_ protection).Apart m)
    (hp : sorted.Perm (.fresh name start end_ protection :: maps))
    (hs : sorted.Pairwise (fun a b => a.hi ≤ b.hi)) :
    sorted = mapMemory maps name start end_ protection := by
  have hcons := h.cons ho ha
  have hperm : sorted.Perm (mapMemory maps name start end_ protection) :=
    hp.trans (mapMemory_perm ..).symm
  have hsorted := hcons.of_perm hp.symm
  exact Intervals.eq_of_perm hperm hsorted.ordered hsorted.apart hs (mapMemory_sorted ..)

/-- What a successful `get_pointer_unchecked` says: the position is that of the
first map that covers the address. -/
theorem getPointerUnchecked_eq_some {maps : List MemoryMap} {address : Word} {p : HostPtr} :
    getPointerUnchecked maps address = some p ↔
      ∃ it, maps[p.map]? = some it ∧ it.Covers address ∧
        p.offset = (address - it.start).toNat ∧
        ∀ j < p.map, ∀ m, maps[j]? = some m → ¬ m.Covers address := by
  induction maps generalizing p with
  | nil => simp [getPointerUnchecked]
  | cons it rest ih =>
    obtain ⟨i, off⟩ := p
    rw [getPointerUnchecked]
    split
    · rename_i hc
      cases i with
      | zero => simp [hc, eq_comm]
      | succ i =>
        constructor
        · intro h; cases h
        · rintro ⟨_, _, _, _, hfirst⟩
          exact absurd hc (hfirst 0 (by simp) it rfl)
    · rename_i hc
      cases i with
      | zero =>
        constructor
        · intro h
          obtain ⟨q, _, hq⟩ := Option.map_eq_some_iff.mp h
          cases hq
        · rintro ⟨m, hm, hcov, _⟩
          cases hm
          exact absurd hcov hc
      | succ i =>
        have hmap : (getPointerUnchecked rest address).map
            (fun p => (⟨p.map + 1, p.offset⟩ : HostPtr)) = some ⟨i + 1, off⟩ ↔
              getPointerUnchecked rest address = some ⟨i, off⟩ := by
          constructor
          · intro h
            obtain ⟨q, hq, he⟩ := Option.map_eq_some_iff.mp h
            cases he
            exact hq
          · intro h
            rw [h]
            rfl
        rw [hmap, ih]
        simp only [List.getElem?_cons_succ]
        refine exists_congr fun m => and_congr_right fun _ => and_congr_right fun _ =>
          and_congr_right fun _ => ?_
        constructor
        · intro h j hj m' hm'
          cases j with
          | zero => cases hm'; exact hc
          | succ j => exact h j (by simpa using hj) m' (by simpa using hm')
        · intro h j hj m' hm'
          exact h (j + 1) (by simpa using hj) m' (by simpa using hm')

theorem getPointerUnchecked_eq_none {maps : List MemoryMap} {address : Word} :
    getPointerUnchecked maps address = none ↔ ∀ it ∈ maps, ¬ it.Covers address := by
  induction maps with
  | nil => simp [getPointerUnchecked]
  | cons it rest ih =>
    rw [getPointerUnchecked]
    split
    · rename_i hc
      simp [hc]
    · rename_i hc
      simp [hc, ih]

/-- Without overlaps the map that covers an address is the one that is found. -/
theorem getPointerUnchecked_of_apart {maps : List MemoryMap}
    (h : maps.Pairwise MemoryMap.Apart) {i : Nat} {it : MemoryMap} {address : Word}
    (hi : maps[i]? = some it) (hc : it.Covers address) :
    getPointerUnchecked maps address = some ⟨i, (address - it.start).toNat⟩ := by
  refine getPointerUnchecked_eq_some.mpr ⟨it, hi, hc, rfl, fun j hj m hm hcm => ?_⟩
  exact absurd (Intervals.index_unique h hm hi hcm hc) (Nat.ne_of_lt hj)

theorem Laid.getPointerUnchecked {maps : List MemoryMap} (h : Laid maps) {i : Nat}
    {it : MemoryMap} {address : Word} (hi : maps[i]? = some it) (hc : it.Covers address) :
    getPointerUnchecked maps address = some ⟨i, (address - it.start).toNat⟩ :=
  getPointerUnchecked_of_apart h.apart hi hc

theorem isValidAddressRange_iff {maps : List MemoryMap} {start end_ : Word} :
    isValidAddressRange maps start end_ = true ↔
      ∃ i ∈ maps, i.start ≤ start ∧ end_ < i.end_ := by
  simp [isValidAddressRange]

end Memory
end Betavita
