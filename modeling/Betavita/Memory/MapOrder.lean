import Betavita.Lib.Transition
import Betavita.Memory.Access

/-!
# memory.cpp — the sort at the end of `map_memory`

`map_memory` appends the new map, takes a pointer to it, and sorts the list by end address
with `std::sort`, which may leave maps of equal ends in any order. `MapsTo` is the call with
any outcome of the sort; `mapMemory` is one of them, and the only one for a range that meets
no map.
-/

namespace Betavita.Memory

open Transition UnstableSort

/-- The arguments of a call of `map_memory`. -/
structure MapRequest where
  name : String
  start : Word
  end_ : Word
  protection : ProtectionType
deriving DecidableEq

/-- The map that the call adds. -/
def MapRequest.map (r : MapRequest) : MemoryMap := .fresh r.name r.start r.end_ r.protection

/-- What `std::sort` leaves: the same maps, and none behind one that ends after it. -/
def SortedByEnd (maps sorted : List MemoryMap) : Prop :=
  SortsTo (fun a b => a.hi ≤ b.hi) maps sorted

/-- `map_memory`, with any outcome of the sort. -/
def MapsTo (maps : List MemoryMap) (r : MapRequest) (maps' : List MemoryMap) : Prop :=
  SortedByEnd (maps ++ [r.map]) maps'

theorem mapMemory_mapsTo (maps : List MemoryMap) (r : MapRequest) :
    MapsTo maps r (mapMemory maps r.name r.start r.end_ r.protection) :=
  ⟨List.perm_insertionSort _ _, mapMemory_sorted ..⟩

/-- A range that meets no map leaves the sort no choice. -/
theorem MapsTo.eq_mapMemory {maps maps' : List MemoryMap} {r : MapRequest} (h : Laid maps)
    (ho : r.start ≤ r.end_) (ha : ∀ m ∈ maps, r.map.Apart m) (hto : MapsTo maps r maps') :
    maps' = mapMemory maps r.name r.start r.end_ r.protection :=
  eq_mapMemory_of_perm h ho ha (hto.perm.trans (List.perm_append_singleton _ _)) hto.ordered

/-! ## Runs -/

/-- After the calls the list has their maps, sorted by end. -/
theorem mapRun_sorted {rs : List MapRequest} {maps : List MemoryMap}
    (hrun : Steps MapsTo [] rs maps) : SortedByEnd (rs.map MapRequest.map) maps := by
  induction hrun with
  | nil => exact ⟨.nil, .nil⟩
  | snoc _ hlast ih =>
    refine ⟨hlast.perm.trans ?_, hlast.ordered⟩
    rw [List.map_append]
    exact ih.perm.append_right _

/-- Requests without overlaps, mapped in two orders, give one list. -/
theorem mapRun_unique {rs rs' : List MapRequest} {maps maps' : List MemoryMap}
    (hp : rs.Perm rs') (hord : ∀ r ∈ rs, r.start ≤ r.end_)
    (hapart : (rs.map MapRequest.map).Pairwise MemoryMap.Apart)
    (hrun : Steps MapsTo [] rs maps) (hrun' : Steps MapsTo [] rs' maps') : maps = maps' := by
  have h := mapRun_sorted hrun
  have h' := mapRun_sorted hrun'
  have hlaid : Laid (rs.map MapRequest.map) := by
    refine ⟨fun it hit => ?_, hapart⟩
    obtain ⟨r, hr, rfl⟩ := List.mem_map.mp hit
    exact hord r hr
  have hlaid' := hlaid.of_perm h.perm.symm
  have hperm : maps.Perm maps' := h.perm.trans ((hp.map _).trans h'.perm.symm)
  exact Intervals.eq_of_perm hperm hlaid'.ordered hlaid'.apart h.ordered h'.ordered

/-! ## The out-parameter -/

/-- `map_memory` with its last argument: the new list, and the slot that `*memory_map` points
to. It is the last one of the list before the sort, and it stays that one. -/
def mapMemoryOut (memoryMapList : List MemoryMap) (name : String) (start end_ : Word)
    (protection : ProtectionType) : List MemoryMap × Nat :=
  let memoryMap := (memoryMapList ++ [MemoryMap.fresh name start end_ protection]).length - 1
  (mapMemory memoryMapList name start end_ protection, memoryMap)

/-- Whatever the sort does, the slot has the map of the call. -/
def OutDesignates (maps : List MemoryMap) (r : MapRequest) : Prop :=
  ∀ maps', MapsTo maps r maps' →
    ∃ it, maps'[(mapMemoryOut maps r.name r.start r.end_ r.protection).2]? = some it ∧
      it.name = r.name ∧ it.start = r.start ∧ it.end_ = r.end_ ∧ it.protection = r.protection

section Out

variable {maps : List MemoryMap} {r : MapRequest}

theorem MemoryMap.header_eq_iff {it : MemoryMap} :
    it.header = r.map.header ↔ it.name = r.name ∧ it.start = r.start ∧ it.end_ = r.end_ ∧
      it.protection = r.protection := by
  simp only [MemoryMap.header, Prod.mk.injEq]
  rfl

/-- The slot is the last one of the sorted list. -/
theorem outDesignates_iff_last :
    OutDesignates maps r ↔
      ∀ pre last, MapsTo maps r (pre ++ [last]) → last.header = r.map.header := by
  have hslot : (mapMemoryOut maps r.name r.start r.end_ r.protection).2 = maps.length := by
    simp [mapMemoryOut]
  have hlen : ∀ {pre : List MemoryMap} {last : MemoryMap}, MapsTo maps r (pre ++ [last]) →
      (pre ++ [last])[maps.length]? = some last := by
    intro pre last h
    have hperm := h.perm.length_eq
    simp only [List.length_append, List.length_singleton, Nat.add_right_cancel_iff] at hperm
    rw [← hperm]
    simp
  unfold OutDesignates
  rw [hslot]
  simp only [← MemoryMap.header_eq_iff]
  constructor
  · intro h pre last hto
    obtain ⟨it, hit, hheader⟩ := h _ hto
    cases (hlen hto).symm.trans hit
    exact hheader
  · intro h maps' hto
    rcases List.eq_nil_or_concat maps' with rfl | ⟨pre, last, rfl⟩
    · have hperm := hto.perm.length_eq
      simp at hperm
    · rw [List.concat_eq_append] at hto ⊢
      exact ⟨last, hlen hto, h pre last hto⟩

/-- A map that has to stay behind the new one, or may, is another outcome of the sort. -/
theorem exists_sorted_last {m : MemoryMap} (hm : m ∈ maps) (hge : r.map.hi ≤ m.hi) :
    ∃ pre last, MapsTo maps r (pre ++ [last]) ∧ (last = m ∨ m.hi < last.hi) := by
  by_cases htop : ∀ x ∈ maps, x.hi ≤ m.hi
  · -- `m` ends last, so it may stand last
    refine ⟨(maps.erase m ++ [r.map]).insertionSort (fun a b => a.end_ ≤ b.end_), m, ⟨?_, ?_⟩,
      .inl rfl⟩
    · refine (List.perm_append_singleton _ _).trans ?_
      refine ((List.perm_insertionSort _ _).cons m).trans ?_
      exact ((List.perm_cons_erase hm).symm.append_right [r.map])
    · rw [List.pairwise_append]
      refine ⟨List.pairwise_insertionSort _ _, List.pairwise_singleton _ _, fun x hx y hy => ?_⟩
      cases List.mem_singleton.mp hy
      rcases List.mem_append.mp ((List.perm_insertionSort _ _).mem_iff.mp hx) with hx | hx
      · exact htop x (List.mem_of_mem_erase hx)
      · cases List.mem_singleton.mp hx
        exact hge
  · push Not at htop
    obtain ⟨x, hx, hlt⟩ := htop
    have hto := mapMemory_mapsTo maps r
    rcases List.eq_nil_or_concat (mapMemory maps r.name r.start r.end_ r.protection) with
      hnil | ⟨pre, last, hsplit⟩
    · have hlen := hto.perm.length_eq
      rw [hnil] at hlen
      simp at hlen
    · rw [List.concat_eq_append] at hsplit
      rw [hsplit] at hto
      refine ⟨pre, last, hto, .inr ?_⟩
      have hmem : x ∈ pre ++ [last] := hto.perm.mem_iff.mpr (List.mem_append_left _ hx)
      rcases List.mem_append.mp hmem with hpre | hlast
      · have hle := (List.pairwise_append.mp hto.ordered).2.2 x hpre last (by simp)
        exact lt_of_lt_of_le hlt hle
      · exact (List.mem_singleton.mp hlast) ▸ hlt

/-- The last map of the sorted list is the new one when every other map ends before it. -/
theorem outDesignates_iff :
    OutDesignates maps r ↔ ∀ m ∈ maps, m.end_ < r.end_ ∨ m.header = r.map.header := by
  rw [outDesignates_iff_last]
  constructor
  · intro h m hm
    by_contra hnot
    push Not at hnot
    obtain ⟨hge, hne⟩ := hnot
    have hge' : r.map.hi ≤ m.hi := Nat.le_of_not_lt hge
    obtain ⟨pre, last, hto, hlast⟩ := exists_sorted_last hm hge'
    have hheader := h pre last hto
    rcases hlast with rfl | hlt
    · exact hne hheader
    · have hend : last.hi = r.map.hi := congrArg BitVec.toNat (MemoryMap.header_eq hheader).2.1
      omega
  · intro h pre last hto
    have hmem : last ∈ maps ++ [r.map] := hto.perm.mem_iff.mp (by simp)
    rcases List.mem_append.mp hmem with hold | hnew
    · rcases h last hold with hlt | hheader
      · -- the new map would stand behind it
        have hnew : r.map ∈ pre ++ [last] := hto.perm.mem_iff.mpr (by simp)
        have hlt' : last.hi < r.map.hi := hlt
        rcases List.mem_append.mp hnew with hpre | hlast
        · have hle := (List.pairwise_append.mp hto.ordered).2.2 r.map hpre last (by simp)
          omega
        · rw [List.mem_singleton.mp hlast] at hlt'
          omega
      · exact hheader
    · rw [List.mem_singleton.mp hnew]

/-- `map_memory(name, start, end, protection, &m)` leaves `m` at the new map, whatever the
sort does with equal ends, exactly when every other map ends before it or is the same but for
its bytes; of a range that meets no map, exactly when it ends behind all of them. -/
theorem mapMemory_out_iff (maps : List MemoryMap) (r : MapRequest) :
    (OutDesignates maps r ↔ ∀ m ∈ maps, m.end_ < r.end_ ∨ m.header = r.map.header) ∧
    (r.start ≤ r.end_ → (∀ m ∈ maps, r.map.Apart m) →
      (OutDesignates maps r ↔ ∀ m ∈ maps, m.end_ < r.end_)) := by
  refine ⟨outDesignates_iff, fun hord hapart => ?_⟩
  rw [outDesignates_iff]
  refine forall₂_congr fun m hm => or_iff_left fun hheader => ?_
  -- the same range would not be apart
  obtain ⟨hstart, hend, _⟩ := MemoryMap.header_eq hheader
  have hnew : r.map.Covers r.start := ⟨BitVec.le_refl _, hord⟩
  have hold : m.Covers r.start := by
    rw [MemoryMap.Covers, hstart, hend]
    exact hnew
  exact (hapart m hm).not_mem (MemoryMap.covers_iff.mp hnew) (MemoryMap.covers_iff.mp hold)

/-- A map above the only other one. -/
theorem mapMemory_out_above :
    OutDesignates [.fresh "a" 0x10#32 0x1F#32 3#8] ⟨"b", 0x20#32, 0x2F#32, 3#8⟩ :=
  (mapMemory_out_iff _ _).1.mpr (by decide)

/-- A map below the only other one: the slot has the other one. -/
theorem mapMemory_out_below :
    ¬ OutDesignates [.fresh "b" 0x20#32 0x2F#32 3#8] ⟨"a", 0x10#32, 0x1F#32, 3#8⟩ := by
  intro h
  obtain ⟨it, hit, hname, _⟩ := h _ (mapMemory_mapsTo _ _)
  have hslot : (mapMemory [.fresh "b" 0x20#32 0x2F#32 3#8] "a" 0x10#32 0x1F#32 3#8)[1]? =
      some (.fresh "b" 0x20#32 0x2F#32 3#8) := by decide
  cases hslot.symm.trans hit
  exact absurd hname (by decide)

end Out

end Betavita.Memory
