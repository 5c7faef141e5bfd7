import Betavita.Hle.MemoryManager
import Betavita.Lib.Transition

/-!
# Runs of the allocator

Stack and heap requests with arbitrary sizes, served one after the other from the
empty map list. `RoomFor` says when none of the 32-bit steps of `more_memory`
misleads it; on runs of such requests every request either fails cleanly or adds
one map that meets no other.
-/

namespace Betavita.Hle

open Memory Transition

/-- A call of `allocate_stack` or `allocate_heap`. -/
inductive AllocRequest
  | stack (size : Word) (name : String)
  | heap (size : Word) (name : String)

def AllocRequest.size : AllocRequest → Word
  | .stack size _ => size
  | .heap size _ => size

def AllocRequest.serve (maps : List MemoryMap) : AllocRequest → List MemoryMap × Word
  | .stack size name => allocateStack maps size name
  | .heap size name => allocateHeap maps size name

/-- What a request promises: it returns `0` and changes nothing, or it adds one
map of at least the requested size that meets none of the others. -/
def AllocOk (maps : List MemoryMap) (size : Word) (result : List MemoryMap × Word) : Prop :=
  (result.2 = 0 ∧ result.1 = maps) ∨
    ∃ it, result.1.Perm (it :: maps) ∧ it.start ≤ it.end_ ∧
      size.toNat ≤ it.end_.toNat - it.start.toNat + 1 ∧ ∀ m ∈ maps, it.Apart m

/-- The request rounds and fits without a wrap: rounding the size up does not leave
32 bits; no hole in front of the first that takes the block is so much smaller than
the block that the signed test takes it for a large one; and there is a first-fit
hole, or room above the last map, or the candidate above the last map is exactly
`2 ^ 32`, which `more_memory` reports, or the candidate wrapped to `0x1000` and the
block fits below every map. -/
structure RoomFor (maps : List MemoryMap) (size : Word) : Prop where
  rounds : size.toNat + 0x1000 < 2 ^ 32
  signed : ∀ pre a b post, maps = pre ++ a :: b :: post →
    (∀ x y, [x, y] <:+: pre ++ [a] → ¬ FitsHole (pagedSize size) x y) →
    (pagedSize size).toNat + 0x2000 ≤ hole a b + 2 ^ 31
  place : (maps = [] ∧ 0x60000000 + (pagedSize size).toNat ≤ 2 ^ 32) ∨
    (∃ a b, [a, b] <:+: maps ∧ FitsHole (pagedSize size) a b) ∨
    ∃ pre last, maps = pre ++ [last] ∧
      (last.hi + 0x1001 + (pagedSize size).toNat ≤ 2 ^ 32 ∨ last.hi + 0x1001 = 2 ^ 32 ∨
        last.hi + 1 = 2 ^ 32 ∧ ∀ m ∈ maps, 0x1000 + (pagedSize size).toNat ≤ m.lo)

/-- Where a first-fit search with guard pages puts a block: at a fixed address in an
empty list, behind the first map whose hole takes it, or behind the last map. -/
inductive FirstFit (maps : List MemoryMap) (memorySize : Word) : Nat → Prop
  | empty (hmaps : maps = []) : FirstFit maps memorySize 0x60000000
  | hole {pre post : List MemoryMap} {a b : MemoryMap} (hmaps : maps = pre ++ a :: b :: post)
      (hfits : FitsHole memorySize a b)
      (hearlier : ∀ x y, [x, y] <:+: pre ++ [a] → ¬ FitsHole memorySize x y) :
      FirstFit maps memorySize (a.hi + 0x1001)
  | top {pre : List MemoryMap} {last : MemoryMap} (hmaps : maps = pre ++ [last])
      (hnone : ∀ x y, [x, y] <:+: maps → ¬ FitsHole memorySize x y) :
      FirstFit maps memorySize ((last.hi + 0x1001) % 2 ^ 32)

/-- The lists a run reaches. -/
structure AllocInv (maps : List MemoryMap) : Prop where
  paged : Paged maps
  guarded : EndsAtTop maps ∨ Guarded maps

/-- A page-aligned block at `address` that meets no map, with a guard page on both
sides of it unless the list reaches the top of the address space. -/
structure Placed (maps : List MemoryMap) (address memorySize : Word) : Prop where
  aligned : address.toNat % 4096 = 0
  sizeAligned : memorySize.toNat % 4096 = 0
  sizePos : 0 < memorySize.toNat
  nonzero : address ≠ 0
  noWrap : address.toNat + memorySize.toNat ≤ 2 ^ 32
  apart : ∀ m ∈ maps, m.hi < address.toNat ∨ address.toNat + memorySize.toNat ≤ m.lo
  guarded : EndsAtTop maps ∨ ∀ m ∈ maps,
    m.hi + 0x1001 ≤ address.toNat ∨ address.toNat + memorySize.toNat + 0x1000 ≤ m.lo

theorem AllocInv.nil : AllocInv [] := ⟨.nil, .inr .nil⟩

/-- The page-rounded size holds the request. -/
theorem pagedSize_bounds {size : Word} (h : size.toNat + 0x1000 < 2 ^ 32) :
    (pagedSize size).toNat % 4096 = 0 ∧ 0 < (pagedSize size).toNat ∧
      size.toNat ≤ (pagedSize size).toNat := by
  rw [pagedSize_toNat h]
  omega

/-- Neighbours in a list of a run are in order, so the signed test reads their hole. -/
theorem Paged.infix_hole {maps : List MemoryMap} (h : Paged maps) {a b : MemoryMap}
    (hab : [a, b] <:+: maps) : a.hi % 4096 = 4095 ∧ a.hi < b.lo := by
  have hlt := h.increasing.sublist hab.sublist
  exact ⟨(h.aligned a (hab.subset (by simp))).2, by simpa using hlt⟩

/-- A first-fit hole was found: the block stands in it between two guard pages. -/
theorem placed_of_hole {pre post : List MemoryMap} {a b : MemoryMap} {size : Word}
    (h : Paged (pre ++ a :: b :: post)) (hrounds : size.toNat + 0x1000 < 2 ^ 32)
    (hroom : (pagedSize size).toNat + 0x2000 ≤ hole a b) :
    (newPagedAddr a).toNat = a.hi + 0x1001 ∧
      Placed (pre ++ a :: b :: post) (newPagedAddr a) (pagedSize size) := by
  obtain ⟨hmod, hpos, _⟩ := pagedSize_bounds hrounds
  have hguard := h.hole_guard hroom
  have hb : a.hi + 0x1001 + (pagedSize size).toNat + 0x1000 ≤ b.lo := by
    have := hguard b (by simp)
    have hord := h.lo_le_hi (show b ∈ pre ++ a :: b :: post by simp)
    have hinc := (List.pairwise_append.mp h.increasing).2.1
    have := (List.pairwise_cons.mp hinc).1 b (by simp)
    unfold hole at hroom
    omega
  have hblt := b.start.isLt
  have haddr : (newPagedAddr a).toNat = a.hi + 0x1001 := by
    rw [newPagedAddr_toNat (h.aligned a (by simp)).2]
    unfold MemoryMap.lo at hb
    omega
  refine ⟨haddr, newPagedAddr_mod a, hmod, hpos, ?_, ?_, ?_, .inr ?_⟩
  · intro hz
    rw [hz] at haddr
    simp at haddr
  · rw [haddr]
    unfold MemoryMap.lo at hb
    omega
  · intro m hm
    rw [haddr]
    have := hguard m hm
    omega
  · intro m hm
    rw [haddr]
    exact hguard m hm

/-- On the lists of a run the carried candidate is behind the last map's guard page. -/
theorem AllocInv.carriedTop {pre : List MemoryMap} {last : MemoryMap}
    (h : AllocInv (pre ++ [last])) :
    (carriedTop 0#32 (pre ++ [last])).toNat = (last.hi + 0x1001) % 2 ^ 32 := by
  rcases carriedTop_last h.paged with hc | ⟨hc, a, ha, hal⟩
  · exact hc
  · have hlt := MemoryMap.hi_lt last
    rcases h.guarded with ⟨it, hit, htop⟩ | hg
    · have := h.paged.hi_le_last it hit
      have := (Hle.carriedTop 0#32 (pre ++ [last])).isLt
      omega
    · have := (List.pairwise_append.mp hg).2.2 a ha last (by simp)
      have := h.paged.lo_le_hi (show last ∈ pre ++ [last] by simp)
      omega

/-- No hole was taken: the carried candidate is above the last map, or it is `0`, or
it wrapped to `0x1000` with room below every map. -/
theorem placed_of_top {pre : List MemoryMap} {last : MemoryMap} {size : Word}
    (h : AllocInv (pre ++ [last])) (hrounds : size.toNat + 0x1000 < 2 ^ 32)
    (hroom : last.hi + 0x1001 + (pagedSize size).toNat ≤ 2 ^ 32 ∨ last.hi + 0x1001 = 2 ^ 32 ∨
      last.hi + 1 = 2 ^ 32 ∧ ∀ m ∈ pre ++ [last], 0x1000 + (pagedSize size).toNat ≤ m.lo) :
    carriedTop 0#32 (pre ++ [last]) = 0 ∨
      Placed (pre ++ [last]) (carriedTop 0#32 (pre ++ [last])) (pagedSize size) := by
  obtain ⟨hmod, hpos, _⟩ := pagedSize_bounds hrounds
  have hle := h.paged.hi_le_last
  have hcand := h.carriedTop
  have hal := (h.paged.aligned last (by simp)).2
  rcases hroom with hfit | htop | ⟨htop, hbelow⟩
  · right
    have haddr : (carriedTop 0#32 (pre ++ [last])).toNat = last.hi + 0x1001 := by
      rw [hcand]
      omega
    refine ⟨by omega, hmod, hpos, ?_, by omega, ?_, .inr ?_⟩
    · intro hz
      rw [hz] at haddr
      simp at haddr
    · intro m hm
      have := hle m hm
      exact .inl (by omega)
    · intro m hm
      have := hle m hm
      exact .inl (by omega)
  · left
    apply BitVec.eq_of_toNat_eq
    rw [hcand, htop]
    rfl
  · right
    have haddr : (carriedTop 0#32 (pre ++ [last])).toNat = 0x1000 := by
      rw [hcand]
      omega
    have hlo := hbelow last (by simp)
    have hlast := last.start.isLt
    unfold MemoryMap.lo at hlo
    refine ⟨by omega, hmod, hpos, ?_, by omega, ?_, .inl ⟨last, by simp, htop⟩⟩
    · intro hz
      rw [hz] at haddr
      simp at haddr
    · intro m hm
      have := hbelow m hm
      exact .inr (by omega)

/-- What the loop over a list that is not empty found is the address, unless it is `0`. -/
theorem moreMemory_of_loop {maps : List MemoryMap} {size top : Word} (hne : maps ≠ [])
    (hloop : moreMemoryLoop (pagedSize size) maps 0#32 = top) :
    moreMemory maps size =
      if top ≠ 0 then (top, pagedSize size) else (0xFFFFFFFF#32, 0xFFFFFFFF#32) := by
  have hlen : maps.length ≠ 0 := fun hz => hne (List.length_eq_zero_iff.mp hz)
  simp only [moreMemory, hlen, if_false, hloop]

/-- A hole that fails the signed test does not take the block. -/
theorem Paged.not_fitsHole {maps : List MemoryMap} (h : Paged maps) {memorySize : Word}
    {x y : MemoryMap} (hxy : [x, y] <:+: maps) (hneg : emptyPagedBlock memorySize x y < 0) :
    ¬ FitsHole memorySize x y := by
  intro hfits
  obtain ⟨hal, hlt⟩ := h.infix_hole hxy
  exact absurd (hfits.passes hal hlt) (not_le.mpr hneg)

/-- `more_memory` on the lists of a run, for a request there is room for: it reports
failure when first fit would place the block at `0`, and else it returns the address
of first fit, where the block stands free. -/
theorem moreMemory_placed {maps : List MemoryMap} {size : Word} (h : AllocInv maps)
    (hr : RoomFor maps size) :
    moreMemory maps size = (0xFFFFFFFF#32, 0xFFFFFFFF#32) ∧ FirstFit maps (pagedSize size) 0 ∨
      ∃ address, moreMemory maps size = (address, pagedSize size) ∧
        FirstFit maps (pagedSize size) address.toNat ∧
        Placed maps address (pagedSize size) := by
  obtain ⟨hmod, hpos, _⟩ := pagedSize_bounds hr.rounds
  by_cases hnil : maps = []
  · subst hnil
    refine .inr ⟨0x60000000#32, rfl, .empty rfl, by decide, hmod, hpos, by decide, ?_, by simp,
      .inr (by simp)⟩
    rcases hr.place with ⟨_, hfit⟩ | ⟨a, b, hab, _⟩ | ⟨pre, last, hmaps, _⟩
    · exact hfit
    · have := hab.length_le
      simp at this
    · simp at hmaps
  · rcases moreMemoryLoop_cases (pagedSize size) maps 0#32 with
      ⟨pre, a, b, post, hmaps, hfit, hearlier, hres⟩ | ⟨hfail, hres⟩
    · have hab : [a, b] <:+: maps := ⟨pre, post, by rw [hmaps]; simp⟩
      have hnone : ∀ x y, [x, y] <:+: pre ++ [a] → ¬ FitsHole (pagedSize size) x y := by
        intro x y hxy
        have hsub : pre ++ [a] <:+: maps := ⟨[], b :: post, by rw [hmaps]; simp⟩
        exact h.paged.not_fitsHole (hxy.trans hsub) (hearlier x y hxy)
      obtain ⟨hal, hlt⟩ := h.paged.infix_hole hab
      have hfits := FitsHole.of_passes hal hlt (hr.signed pre a b post hmaps hnone) hfit
      subst hmaps
      obtain ⟨haddr, hplaced⟩ := placed_of_hole h.paged hr.rounds hfits.1
      refine .inr ⟨newPagedAddr a, ?_, haddr ▸ .hole rfl hfits hnone, hplaced⟩
      rw [moreMemory_of_loop hnil hres, if_pos hplaced.nonzero]
    · have hnone : ∀ x y, [x, y] <:+: maps → ¬ FitsHole (pagedSize size) x y :=
        fun x y hxy => h.paged.not_fitsHole hxy (hfail x y hxy)
      rcases hr.place with ⟨hz, _⟩ | ⟨a, b, hab, hfits⟩ | ⟨pre, last, hmaps, hroom⟩
      · exact absurd hz hnil
      · exact absurd hfits (hnone a b hab)
      · subst hmaps
        have hfirst : FirstFit (pre ++ [last]) (pagedSize size)
            (carriedTop 0#32 (pre ++ [last])).toNat := h.carriedTop ▸ .top rfl hnone
        rcases placed_of_top h hr.rounds hroom with hz | hplaced
        · rw [hz] at hfirst
          refine .inl ⟨?_, hfirst⟩
          rw [moreMemory_of_loop hnil hres, if_neg (not_not.mpr hz)]
        · refine .inr ⟨_, ?_, hfirst, hplaced⟩
          rw [moreMemory_of_loop hnil hres, if_pos hplaced.nonzero]

/-- The map of a placed block. -/
theorem Placed.fresh {maps : List MemoryMap} {address memorySize : Word}
    (h : Placed maps address memorySize) (name : String) (protection : ProtectionType) :
    (MemoryMap.fresh name address (address + memorySize - 1) protection).lo = address.toNat ∧
      (MemoryMap.fresh name address (address + memorySize - 1) protection).hi + 1 =
        address.toNat + memorySize.toNat := by
  have := h.noWrap
  have := h.sizePos
  refine ⟨rfl, ?_⟩
  show (address + memorySize - 1).toNat + 1 = _
  bv_omega

theorem EndsAtTop.insert {maps maps' : List MemoryMap} {it : MemoryMap} (h : EndsAtTop maps)
    (hperm : maps'.Perm (it :: maps)) : EndsAtTop maps' := by
  obtain ⟨m, hm, htop⟩ := h
  exact ⟨m, hperm.mem_iff.mpr (List.mem_cons_of_mem _ hm), htop⟩

/-- A map with a guard page on both sides can be put into the order of the list. -/
theorem Guarded.insert {maps maps' : List MemoryMap} {it : MemoryMap} (h : Guarded maps)
    (hperm : maps'.Perm (it :: maps)) (hord : ∀ m ∈ maps', m.lo ≤ m.hi)
    (hsorted : maps'.Pairwise (fun a b => a.hi ≤ b.hi))
    (hside : ∀ m ∈ maps, m.hi + 0x1001 ≤ it.lo ∨ it.hi + 0x1001 ≤ m.lo) : Guarded maps' := by
  -- the two-sided gap is symmetric, so it survives the sort
  have hsym : (it :: maps).Pairwise
      (fun a b => a.hi + 0x1001 ≤ b.lo ∨ b.hi + 0x1001 ≤ a.lo) :=
    List.pairwise_cons.mpr ⟨fun m hm => (hside m hm).symm, h.imp fun hab => .inl hab⟩
  have hsym' := hperm.symm.pairwise hsym fun hab => hab.symm
  refine (hsym'.and hsorted).imp_of_mem ?_
  rintro a b ha hb ⟨hab | hab, hle⟩
  · exact hab
  · have hla := hord a ha
    omega

/-- Mapping a placed block adds a map apart from the others. -/
theorem Placed.fresh_apart {maps : List MemoryMap} {address memorySize : Word}
    (hp : Placed maps address memorySize) (h : AllocInv maps) (name : String)
    (protection : ProtectionType) :
    let it := MemoryMap.fresh name address (address + memorySize - 1) protection
    it.start ≤ it.end_ ∧ ∀ m ∈ maps, it.Apart m := by
  intro it
  obtain ⟨hlo, hhi⟩ : it.lo = address.toNat ∧ it.hi + 1 = address.toNat + memorySize.toNat :=
    hp.fresh name protection
  have hpos := hp.sizePos
  have hord : it.start ≤ it.end_ := by
    show it.lo ≤ it.hi
    omega
  refine ⟨hord, fun m hm => ?_⟩
  refine (MemoryMap.apart_iff hord (h.paged.laid.ordered m hm)).mpr ?_
  show it.hi < m.lo ∨ m.hi < it.lo
  have hapart := hp.apart m hm
  omega

/-- And it keeps the invariant. -/
theorem Placed.mapMemory {maps : List MemoryMap} {address memorySize : Word}
    (hp : Placed maps address memorySize) (h : AllocInv maps) (name : String)
    (protection : ProtectionType) :
    AllocInv (mapMemory maps name address (address + memorySize - 1) protection) := by
  obtain ⟨hord, hap⟩ := hp.fresh_apart h name protection
  obtain ⟨hlo, hhi⟩ := hp.fresh name protection
  have hperm := mapMemory_perm maps name address (address + memorySize - 1) protection
  have hsorted := mapMemory_sorted maps name address (address + memorySize - 1) protection
  generalize MemoryMap.fresh name address (address + memorySize - 1) protection = it at *
  have hlaid := (h.paged.laid.cons hord hap).of_perm hperm.symm
  refine ⟨⟨hlaid, fun m hm => ?_, hsorted⟩, ?_⟩
  · rcases List.mem_cons.mp (hperm.mem_iff.mp hm) with rfl | hm
    · have := hp.aligned
      have := hp.sizeAligned
      have := hp.sizePos
      omega
    · exact h.paged.aligned m hm
  · rcases h.guarded with htop | hg
    · exact .inl (htop.insert hperm)
    · rcases hp.guarded with htop | hside
      · exact .inl (htop.insert hperm)
      · refine .inr (hg.insert hperm (fun m hm => hlaid.ordered m hm) hsorted fun m hm => ?_)
        have := hside m hm
        omega

theorem allocate_cases (maps : List MemoryMap) (req : AllocRequest) :
    (moreMemory maps req.size).1 = 0xFFFFFFFF#32 ∧ req.serve maps = (maps, 0) ∨
      (moreMemory maps req.size).1 ≠ 0xFFFFFFFF#32 ∧ ∃ name ret,
        req.serve maps = (mapMemory maps name (moreMemory maps req.size).1
          ((moreMemory maps req.size).1 + (moreMemory maps req.size).2 - 1)
          (PROTECTION_TYPE_READ ||| PROTECTION_TYPE_WRITE), ret) := by
  by_cases h : (moreMemory maps req.size).1 = 0xFFFFFFFF#32
  · refine .inl ⟨h, ?_⟩
    cases req with
    | stack size name => exact if_pos h
    | heap size name => exact if_pos h
  · refine .inr ⟨h, ?_⟩
    cases req with
    | stack size name => exact ⟨_, _, if_neg h⟩
    | heap size name => exact ⟨_, _, if_neg h⟩

/-- One request on a list of a run: it keeps its promise and the invariant. -/
theorem AllocRequest.serve_ok {maps : List MemoryMap} {req : AllocRequest} (h : AllocInv maps)
    (hr : RoomFor maps req.size) :
    AllocOk maps req.size (req.serve maps) ∧ AllocInv (req.serve maps).1 := by
  obtain ⟨_, hpos, hsize⟩ := pagedSize_bounds hr.rounds
  rcases moreMemory_placed h hr with ⟨hnone, _⟩ | ⟨address, hsome, _, hp⟩
  · rcases allocate_cases maps req with ⟨_, hserve⟩ | ⟨hne, _⟩
    · rw [hserve]
      exact ⟨.inl ⟨rfl, rfl⟩, h⟩
    · exact absurd (by rw [hnone]) hne
  · rcases allocate_cases maps req with ⟨heq, _⟩ | ⟨_, name, ret, hserve⟩
    · rw [hsome] at heq
      simp only at heq
      have := hp.aligned
      rw [heq] at this
      simp at this
    · rw [hsome] at hserve
      simp only at hserve
      have hinv := hp.mapMemory h name (PROTECTION_TYPE_READ ||| PROTECTION_TYPE_WRITE)
      obtain ⟨hord, hap⟩ := hp.fresh_apart h name (PROTECTION_TYPE_READ ||| PROTECTION_TYPE_WRITE)
      obtain ⟨hlo, hhi⟩ := hp.fresh name (PROTECTION_TYPE_READ ||| PROTECTION_TYPE_WRITE)
      have hperm := mapMemory_perm maps name address (address + pagedSize req.size - 1)
        (PROTECTION_TYPE_READ ||| PROTECTION_TYPE_WRITE)
      generalize MemoryMap.fresh name address (address + pagedSize req.size - 1)
        (PROTECTION_TYPE_READ ||| PROTECTION_TYPE_WRITE) = it at hlo hhi hord hap hperm
      rw [hserve]
      refine ⟨.inr ⟨it, hperm, hord, ?_, hap⟩, hinv⟩
      show req.size.toNat ≤ it.hi - it.lo + 1
      omega

/-- A block was added where first fit puts it, and the list is still that of a run. -/
structure Allocated (maps : List MemoryMap) (memorySize : Word) (maps' : List MemoryMap)
    (it : MemoryMap) : Prop where
  perm : maps'.Perm (it :: maps)
  inv : AllocInv maps'
  firstFit : FirstFit maps memorySize it.lo
  length : it.hi + 1 = it.lo + memorySize.toNat
  nonempty : 0 < memorySize.toNat
  apart : ∀ m ∈ maps, it.Apart m

theorem Allocated.mem {maps maps' : List MemoryMap} {memorySize : Word} {it : MemoryMap}
    (h : Allocated maps memorySize maps' it) {m : MemoryMap} : m ∈ maps' ↔ m = it ∨ m ∈ maps := by
  rw [h.perm.mem_iff, List.mem_cons]

theorem Placed.allocated {maps : List MemoryMap} {address memorySize : Word}
    (hp : Placed maps address memorySize) (h : AllocInv maps)
    (hfirst : FirstFit maps memorySize address.toNat) (name : String)
    (protection : ProtectionType) :
    Allocated maps memorySize
      (Memory.mapMemory maps name address (address + memorySize - 1) protection)
      (.fresh name address (address + memorySize - 1) protection) :=
  ⟨mapMemory_perm .., hp.mapMemory h name protection, hfirst, (hp.fresh name protection).2,
    hp.sizePos, (hp.fresh_apart h name protection).2⟩

/-- A request there is room for, and that first fit does not report as failed, is served. -/
theorem moreMemory_succeeds {maps : List MemoryMap} {size : Word} (h : AllocInv maps)
    (hr : RoomFor maps size) (hnz : ¬ FirstFit maps (pagedSize size) 0) :
    ∃ address, moreMemory maps size = (address, pagedSize size) ∧ address ≠ 0xFFFFFFFF#32 ∧
      FirstFit maps (pagedSize size) address.toNat ∧ Placed maps address (pagedSize size) := by
  rcases moreMemory_placed h hr with ⟨_, hzero⟩ | ⟨address, hsome, hfirst, hp⟩
  · exact absurd hzero hnz
  · refine ⟨address, hsome, fun heq => ?_, hfirst, hp⟩
    have hal := hp.aligned
    rw [heq] at hal
    simp at hal

theorem allocateStack_ok {maps : List MemoryMap} {size : Word} (h : AllocInv maps)
    (hr : RoomFor maps size) (hnz : ¬ FirstFit maps (pagedSize size) 0) (name : String) :
    ∃ it, Allocated maps (pagedSize size) (allocateStack maps size name).1 it ∧
      (allocateStack maps size name).2 = it.end_ + 1 := by
  obtain ⟨address, hsome, hne, hfirst, hp⟩ := moreMemory_succeeds h hr hnz
  simp only [allocateStack, hsome, if_neg hne]
  refine ⟨_, hp.allocated h hfirst _ _, ?_⟩
  show address + pagedSize size = address + pagedSize size - 1 + 1
  bv_omega

theorem allocateHeap_ok {maps : List MemoryMap} {size : Word} (h : AllocInv maps)
    (hr : RoomFor maps size) (hnz : ¬ FirstFit maps (pagedSize size) 0) (name : String) :
    ∃ it, Allocated maps (pagedSize size) (allocateHeap maps size name).1 it ∧
      (allocateHeap maps size name).2 = it.start := by
  obtain ⟨address, hsome, hne, hfirst, hp⟩ := moreMemory_succeeds h hr hnz
  simp only [allocateHeap, hsome, if_neg hne]
  exact ⟨_, hp.allocated h hfirst _ _, rfl⟩

/-- A request that there is room for leads from one list to the next. -/
def AllocStep (maps : List MemoryMap) (req : AllocRequest) (maps' : List MemoryMap) : Prop :=
  RoomFor maps req.size ∧ maps' = (req.serve maps).1

theorem allocInv_run {reqs : List AllocRequest} {maps : List MemoryMap}
    (hrun : Steps AllocStep [] reqs maps) : AllocInv maps :=
  hrun.invariant (fun _ _ _ h hstep => hstep.2 ▸ (AllocRequest.serve_ok h hstep.1).2) .nil

/-- On every run of requests that there is room for, each request keeps its promise
and the maps stay pairwise disjoint. -/
theorem allocator_run {reqs : List AllocRequest} {maps : List MemoryMap}
    (hrun : Steps AllocStep [] reqs maps) :
    maps.Pairwise MemoryMap.Apart ∧
      ∀ req : AllocRequest, RoomFor maps req.size → AllocOk maps req.size (req.serve maps) :=
  ⟨(allocInv_run hrun).paged.laid.apart,
    fun _ hr => (AllocRequest.serve_ok (allocInv_run hrun) hr).1⟩

theorem roomFor_first (size : Word) (h : size.toNat ≤ 0x9FFFFFFF) : RoomFor [] size := by
  have hr : size.toNat + 0x1000 < 2 ^ 32 := by omega
  refine ⟨hr, fun pre a b post hmaps => ?_, .inl ⟨rfl, ?_⟩⟩
  · simp at hmaps
  · rw [pagedSize_toNat hr]
    omega

theorem roomFor_top {pre : List MemoryMap} {last : MemoryMap} {size : Word}
    (hsize : size.toNat ≤ 2 ^ 30) (htop : last.hi + 0x1001 + (pagedSize size).toNat ≤ 2 ^ 32) :
    RoomFor (pre ++ [last]) size := by
  have hr : size.toNat + 0x1000 < 2 ^ 32 := by omega
  have hpaged := pagedSize_toNat hr
  exact ⟨hr, fun _ _ _ _ _ _ => by omega, .inr (.inr ⟨pre, last, rfl, .inl htop⟩)⟩

/-- A heap, a stack behind it, and a further request. -/
theorem allocator_run_heap :
    ∃ maps, Steps AllocStep [] [.heap 0x1800#32 "a", .stack 0x4000#32 "b"] maps ∧
      maps.map (fun m => (m.name, m.start, m.end_)) =
        [("a_heap", 0x60000000#32, 0x60001FFF#32), ("b_stack", 0x60003000#32, 0x60007FFF#32)] ∧
      maps.Pairwise MemoryMap.Apart ∧
      AllocOk maps 0x1000#32 ((AllocRequest.heap 0x1000#32 "c").serve maps) := by
  let heap : MemoryMap := .fresh "a_heap" 0x60000000#32 0x60001FFF#32 3#8
  let stack : MemoryMap := .fresh "b_stack" 0x60003000#32 0x60007FFF#32 3#8
  have hheap : AllocStep [] (.heap 0x1800#32 "a") ([] ++ [heap]) :=
    ⟨roomFor_first _ (by decide), rfl⟩
  have hplace : moreMemory [heap] 0x4000#32 = (0x60003000#32, 0x5000#32) := by decide
  have hserve : [heap] ++ [stack] = ((AllocRequest.stack 0x4000#32 "b").serve [heap]).1 := by
    rw [AllocRequest.serve, allocateStack, hplace]
    rfl
  have hstack : AllocStep ([] ++ [heap]) (.stack 0x4000#32 "b") ([heap] ++ [stack]) :=
    ⟨roomFor_top (by decide) (by decide), hserve⟩
  have hrun := Steps.snoc (.snoc .nil hheap) hstack
  obtain ⟨hapart, hnext⟩ := allocator_run hrun
  exact ⟨_, hrun, rfl, hapart, hnext (.heap 0x1000#32 "c") (roomFor_top (by decide) (by decide))⟩

/-- Rounding `0xFFFFF000` up to pages wraps to zero: the first request adds an
inverted map. -/
theorem allocateHeap_inverted :
    ¬ AllocOk [] 0xFFFFF000#32 ((AllocRequest.heap 0xFFFFF000#32 "a").serve []) := by
  have hserve : (AllocRequest.heap 0xFFFFF000#32 "a").serve [] =
      ([MemoryMap.fresh ("a" ++ "_heap") 0x60000000#32 0x5FFFFFFF#32
        (PROTECTION_TYPE_READ ||| PROTECTION_TYPE_WRITE)], 0x60000000#32) := rfl
  rw [hserve]
  rintro (⟨hret, _⟩ | ⟨it, hperm, hord, _⟩)
  · exact absurd hret (by decide)
  · obtain rfl := List.singleton_perm_singleton.mp hperm
    exact absurd hord (by decide)

end Betavita.Hle
