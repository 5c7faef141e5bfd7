import Betavita.Lib.ByteStore
import Betavita.Memory.Guest

/-!
# Guest memory as a byte store

What the guest sees of the map list is the byte at each address. A write through a host
pointer is a store at the address the pointer was made of, and a new map is a block of
zeros.
-/

namespace Betavita.Memory

open ByteBuffer ByteStore

/-- A byte is that of the map that covers its address. -/
theorem loadByte_of_covers {maps : List MemoryMap} (hapart : maps.Pairwise MemoryMap.Apart)
    {it : MemoryMap} {x : Word} (hmem : it ∈ maps) (hc : it.Covers x) :
    loadByte maps x = it.data[(x - it.start).toNat]? := by
  obtain ⟨i, hi, hget⟩ := List.getElem_of_mem hmem
  have hit : maps[i]? = some it := by rw [List.getElem?_eq_getElem hi, hget]
  rw [loadByte, getPointerUnchecked_of_apart hapart hit hc, Option.bind_some, byteAt, hit,
    Option.bind_some]

theorem loadByte_of_uncovered {maps : List MemoryMap} {x : Word}
    (h : ∀ it ∈ maps, ¬ it.Covers x) : loadByte maps x = none := by
  rw [loadByte, getPointerUnchecked_eq_none.mpr h, Option.bind_none]

/-- The addresses that have a byte depend on the headers only. -/
theorem loadByte_isSome_of_sameMaps {maps maps' : List MemoryMap} (h : SameMaps maps maps')
    (x : Word) : (loadByte maps' x).isSome = (loadByte maps x).isSome := by
  rw [loadByte, loadByte, ← h.getPointerUnchecked]
  cases hp : getPointerUnchecked maps x with
  | none => rfl
  | some p =>
    obtain ⟨it, hit, -⟩ := getPointerUnchecked_eq_some.mp hp
    obtain ⟨it', hit', hheader⟩ := h.getElem? hit
    have hlen := (MemoryMap.header_eq hheader).2.2
    rw [Option.bind_some, Option.bind_some, byteAt, byteAt, hit, hit', Bool.eq_iff_iff]
    simp [hlen]

/-- A write is a store at the address of its pointer. -/
theorem loadByte_overwrite {maps maps' : List MemoryMap} (hapart : maps.Pairwise MemoryMap.Apart)
    {a : Word} {p : HostPtr} {bytes : List Byte} (hp : getPointerUnchecked maps a = some p)
    (h : writeBytes maps p bytes = .ok maps') :
    loadByte maps' = Store.overwrite (loadByte maps) a bytes := by
  funext x
  rcases Nat.lt_or_ge (x - a).toNat bytes.length with hlt | hge
  · have hx : a + BitVec.ofNat 32 (x - a).toNat = x := by
      rw [BitVec.ofNat_toNat, BitVec.setWidth_eq, BitVec.add_comm, BitVec.sub_add_cancel]
    have hbyte := loadByte_writeBytes hapart hp h hlt
    rw [hx] at hbyte
    rw [hbyte, Store.overwrite_inside _ hlt]
  · rw [Store.overwrite_outside _ hge]
    refine loadByte_writeBytes_of_ne hp h fun i hi heq => ?_
    rw [heq] at hge
    bv_omega

/-- A new map is a block of zeros. -/
theorem loadByte_mapMemory {maps : List MemoryMap} {name : String} {start end_ : Word}
    {protection : ProtectionType}
    (hapart : (mapMemory maps name start end_ protection).Pairwise MemoryMap.Apart)
    (hsize : ∀ x, (MemoryMap.fresh name start end_ protection).Covers x →
      (MemoryMap.fresh name start end_ protection).size ≠ 0) :
    loadByte (mapMemory maps name start end_ protection) =
      Store.fill (loadByte maps)
        {x | (MemoryMap.fresh name start end_ protection).Covers x} 0 := by
  have hperm := mapMemory_perm maps name start end_ protection
  have hmem : ∀ {m}, m ∈ mapMemory maps name start end_ protection ↔
      m = .fresh name start end_ protection ∨ m ∈ maps := by
    intro m
    rw [hperm.mem_iff, List.mem_cons]
  have hold : maps.Pairwise MemoryMap.Apart :=
    (List.pairwise_cons.mp (hperm.pairwise hapart fun h => h.symm)).2
  funext x
  by_cases hc : (MemoryMap.fresh name start end_ protection).Covers x
  · rw [Store.fill_inside (loadByte maps) hc, loadByte_of_covers hapart (hmem.mpr (.inl rfl)) hc]
    have hlen := MemoryMap.range_le_data_length (n := 1) (by decide) hc.1
      (Nat.add_le_add_right hc.2 1) (hsize x hc)
    refine List.getElem?_replicate_of_lt ?_
    rw [(MemoryMap.fresh name start end_ protection).data_length] at hlen
    exact hlen
  · rw [Store.fill_outside (loadByte maps) hc]
    by_cases hany : ∃ it ∈ maps, it.Covers x
    · obtain ⟨it, hit, hcov⟩ := hany
      rw [loadByte_of_covers hold hit hcov, loadByte_of_covers hapart (hmem.mpr (.inr hit)) hcov]
    · have hnone : ∀ it ∈ maps, ¬ it.Covers x := fun it hit hcov => hany ⟨it, hit, hcov⟩
      rw [loadByte_of_uncovered hnone]
      refine loadByte_of_uncovered fun it hit => ?_
      rcases hmem.mp hit with rfl | hit
      · exact hc
      · exact hnone it hit

end Betavita.Memory
