import Betavita.Memory.Map

/-!
# memory_manager.cpp — placing stacks and heaps

`more_memory` walks the sorted map list once. It carries a candidate address,
the page after the guard page of the last map seen, and stops early at the first
hole whose signed 32-bit size test passes. The lemmas describe the walk for any
list, and then for the page-aligned lists the allocator itself builds.
-/

namespace Betavita.Hle

open Memory

/-- `(size + 0x1000) & ~0xFFF`. -/
def pagedSize (size : Word) : Word := (size + 0x1000#32) &&& ~~~0xFFF#32

/-- `(map->end + 1 + 0x1000) & ~0xFFF`, the first page after a guard page. -/
def newPagedAddr (startMap : MemoryMap) : Word :=
  (startMap.end_ + 1#32 + 0x1000#32) &&& ~~~0xFFF#32

/-- `int empty_paged_block`: the 32-bit difference read as signed. -/
def emptyPagedBlock (memorySize : Word) (startMap endMap : MemoryMap) : Int :=
  ((endMap.start - 0x1000#32) - newPagedAddr startMap - memorySize).toInt

/-- The candidate after one more map. -/
def raiseTop (topAddress : Word) (startMap : MemoryMap) : Word :=
  if topAddress < startMap.end_ then newPagedAddr startMap else topAddress

/-- The loop of `more_memory`; its value is `top_address` when the loop is left. -/
def moreMemoryLoop (memorySize : Word) : List MemoryMap → Word → Word
  | [], topAddress => topAddress
  | [startMap], topAddress => raiseTop topAddress startMap
  | startMap :: endMap :: rest, topAddress =>
    if emptyPagedBlock memorySize startMap endMap ≥ 0 then newPagedAddr startMap
    else moreMemoryLoop memorySize (endMap :: rest) (raiseTop topAddress startMap)

/-- `more_memory`: an address and the paged size, or `{ -1, -1 }`. -/
def moreMemory (memlist : List MemoryMap) (size : Word) : Word × Word :=
  let memorySize := pagedSize size
  if memlist.length = 0 then (0x60000000#32, pagedSize size)
  else
    let topAddress := moreMemoryLoop memorySize memlist 0#32
    if topAddress ≠ 0 then (topAddress, memorySize) else (0xFFFFFFFF#32, 0xFFFFFFFF#32)

/-- `allocate_stack`: the new list and the address one past the stack, `0` on failure. -/
def allocateStack (maps : List MemoryMap) (size : Word) (name : String) :
    List MemoryMap × Word :=
  let (address, memorySize) := moreMemory maps size
  if address = 0xFFFFFFFF#32 then (maps, 0)
  else
    (mapMemory maps (name ++ "_stack") address (address + memorySize - 1)
      (PROTECTION_TYPE_READ ||| PROTECTION_TYPE_WRITE), address + memorySize)

/-- `allocate_heap`: the new list and the first address of the block, `0` on failure. -/
def allocateHeap (maps : List MemoryMap) (size : Word) (name : String) :
    List MemoryMap × Word :=
  let (address, memorySize) := moreMemory maps size
  if address = 0xFFFFFFFF#32 then (maps, 0)
  else
    (mapMemory maps (name ++ "_heap") address (address + memorySize - 1)
      (PROTECTION_TYPE_READ ||| PROTECTION_TYPE_WRITE), address)

/-! ## The walk over any list -/

/-- The candidate once every map has been seen. -/
def carriedTop (topAddress : Word) (maps : List MemoryMap) : Word :=
  maps.foldl raiseTop topAddress

/-- The walk leaves at the first neighbouring pair that passes the test, or it
carries the candidate to the end. -/
theorem moreMemoryLoop_cases (memorySize : Word) (maps : List MemoryMap) (topAddress : Word) :
    (∃ pre a b post, maps = pre ++ a :: b :: post ∧ 0 ≤ emptyPagedBlock memorySize a b ∧
      (∀ x y, [x, y] <:+: pre ++ [a] → emptyPagedBlock memorySize x y < 0) ∧
      moreMemoryLoop memorySize maps topAddress = newPagedAddr a) ∨
    ((∀ x y, [x, y] <:+: maps → emptyPagedBlock memorySize x y < 0) ∧
      moreMemoryLoop memorySize maps topAddress = carriedTop topAddress maps) := by
  induction maps generalizing topAddress with
  | nil => exact .inr ⟨by simp, rfl⟩
  | cons a rest ih =>
    cases rest with
    | nil =>
      refine .inr ⟨fun x y h => ?_, rfl⟩
      have := h.length_le
      simp at this
    | cons b rest =>
      rw [moreMemoryLoop]
      split
      · rename_i hfit
        refine .inl ⟨[], a, b, rest, rfl, hfit, fun x y h => ?_, rfl⟩
        have := h.length_le
        simp at this
      · rename_i hfit
        have hcons : ∀ (l : List MemoryMap) (x y : MemoryMap), [x, y] <:+: a :: b :: l →
            x = a ∧ y = b ∨ [x, y] <:+: b :: l := by
          intro l x y h
          rcases List.infix_cons_iff.mp h with h | h
          · rw [List.cons_prefix_cons, List.cons_prefix_cons] at h
            exact .inl ⟨h.1, h.2.1⟩
          · exact .inr h
        rcases ih (raiseTop topAddress a) with
          ⟨pre, c, d, post, hmaps, hpass, hfail, hres⟩ | ⟨hfail, hres⟩
        · refine .inl ⟨a :: pre, c, d, post, by rw [hmaps]; rfl, hpass, fun x y h => ?_, hres⟩
          have hhead : ∃ l, pre ++ [c] = b :: l := by
            cases pre with
            | nil =>
              simp only [List.nil_append, List.cons.injEq] at hmaps
              exact ⟨[], by rw [hmaps.1]; rfl⟩
            | cons p pre =>
              simp only [List.cons_append, List.cons.injEq] at hmaps
              exact ⟨pre ++ [c], by rw [hmaps.1]; rfl⟩
          obtain ⟨l, hl⟩ := hhead
          rw [List.cons_append, hl] at h
          rcases hcons l x y h with ⟨rfl, rfl⟩ | h
          · exact not_le.mp hfit
          · exact hfail x y (hl ▸ h)
        · refine .inr ⟨fun x y h => ?_, hres⟩
          rcases hcons rest x y h with ⟨rfl, rfl⟩ | h
          · exact not_le.mp hfit
          · exact hfail x y h

theorem carriedTop_concat (topAddress : Word) (maps : List MemoryMap) (it : MemoryMap) :
    carriedTop topAddress (maps ++ [it]) = raiseTop (carriedTop topAddress maps) it :=
  List.foldl_append

/-- A carried candidate is the page after some map's guard page. -/
theorem carriedTop_eq (topAddress : Word) (maps : List MemoryMap) :
    carriedTop topAddress maps = topAddress ∨
      ∃ it ∈ maps, carriedTop topAddress maps = newPagedAddr it := by
  induction maps generalizing topAddress with
  | nil => exact .inl rfl
  | cons it rest ih =>
    have hstep : carriedTop topAddress (it :: rest) = carriedTop (raiseTop topAddress it) rest :=
      rfl
    rcases ih (raiseTop topAddress it) with h | ⟨m, hm, h⟩
    · rw [hstep, h, raiseTop]
      split
      · exact .inr ⟨it, by simp, rfl⟩
      · exact .inl rfl
    · exact .inr ⟨m, by simp [hm], hstep ▸ h⟩

/-! ## The walk over page-aligned lists -/

/-- What every map the allocator adds keeps true of the list: no overlaps, whole
pages, sorted by end. -/
structure Paged (maps : List MemoryMap) : Prop where
  laid : Laid maps
  aligned : ∀ it ∈ maps, it.lo % 4096 = 0 ∧ it.hi % 4096 = 4095
  sorted : maps.Pairwise (fun a b => a.hi ≤ b.hi)

/-- Every map is followed by a free page. -/
def Guarded (maps : List MemoryMap) : Prop :=
  maps.Pairwise (fun a b => a.hi + 0x1001 ≤ b.lo)

/-- The last map ends with the address space. -/
def EndsAtTop (maps : List MemoryMap) : Prop :=
  ∃ it ∈ maps, it.hi + 1 = 2 ^ 32

/-- The free bytes between neighbouring maps. -/
def hole (a b : MemoryMap) : Nat := b.lo - a.hi - 1

theorem Paged.nil : Paged [] := ⟨.nil, by simp, .nil⟩

theorem Paged.increasing {maps : List MemoryMap} (h : Paged maps) :
    maps.Pairwise (fun a b => a.hi < b.lo) :=
  Intervals.pairwise_lt h.laid.ordered h.sorted h.laid.apart

theorem Paged.lo_le_hi {maps : List MemoryMap} (h : Paged maps) {it : MemoryMap}
    (hit : it ∈ maps) : it.lo ≤ it.hi := h.laid.ordered it hit

/-- The maps before the last one are paged, and below it. -/
theorem Paged.init {pre : List MemoryMap} {last : MemoryMap} (h : Paged (pre ++ [last])) :
    Paged pre where
  laid := ⟨fun it hit => h.laid.ordered it (List.mem_append_left _ hit),
    (List.pairwise_append.mp h.laid.apart).1⟩
  aligned it hit := h.aligned it (List.mem_append_left _ hit)
  sorted := (List.pairwise_append.mp h.sorted).1

theorem Paged.hi_lt_last {pre : List MemoryMap} {last a : MemoryMap}
    (h : Paged (pre ++ [last])) (ha : a ∈ pre) : a.hi < last.lo :=
  (List.pairwise_append.mp h.increasing).2.2 a ha last (List.mem_singleton_self last)

theorem pagedSize_toNat {size : Word} (h : size.toNat + 0x1000 < 2 ^ 32) :
    (pagedSize size).toNat = (size.toNat + 0x1000) / 4096 * 4096 := by
  have hsum : (size + 0x1000#32).toNat = size.toNat + 0x1000 := by bv_omega
  rw [pagedSize, Paging.toNat_pageDown, hsum]

theorem newPagedAddr_toNat {it : MemoryMap} (h : it.hi % 4096 = 4095) :
    (newPagedAddr it).toNat = (it.hi + 0x1001) % 2 ^ 32 := by
  have hsum : (it.end_ + 1#32 + 0x1000#32).toNat = (it.hi + 0x1001) % 2 ^ 32 := by
    unfold MemoryMap.hi
    bv_omega
  rw [newPagedAddr, Paging.toNat_pageDown, hsum]
  have hlt := MemoryMap.hi_lt it
  omega

theorem newPagedAddr_mod (it : MemoryMap) : (newPagedAddr it).toNat % 4096 = 0 := by
  rw [newPagedAddr, Paging.toNat_pageDown]
  omega

/-- The hole takes the block and two guard pages, short of `2 ^ 31` bytes more, which
the signed test does not see. -/
def FitsHole (memorySize : Word) (a b : MemoryMap) : Prop :=
  memorySize.toNat + 0x2000 ≤ hole a b ∧ hole a b < memorySize.toNat + 0x2000 + 2 ^ 31

theorem emptyPagedBlock_nonneg_iff {memorySize : Word} {a b : MemoryMap}
    (ha : a.hi % 4096 = 4095) (hab : a.hi < b.lo) :
    0 ≤ emptyPagedBlock memorySize a b ↔
      (hole a b + 2 ^ 33 - 0x2000 - memorySize.toNat) % 2 ^ 32 < 2 ^ 31 := by
  have hnew := newPagedAddr_toNat ha
  rw [emptyPagedBlock, Paging.toInt_nonneg_iff]
  unfold hole MemoryMap.lo MemoryMap.hi at *
  have hb := b.start.isLt
  have hms := memorySize.isLt
  simp only [BitVec.toNat_sub, hnew, BitVec.toNat_ofNat]
  omega

/-- A hole that takes the block passes the test. -/
theorem FitsHole.passes {memorySize : Word} {a b : MemoryMap} (ha : a.hi % 4096 = 4095)
    (hab : a.hi < b.lo) (h : FitsHole memorySize a b) :
    0 ≤ emptyPagedBlock memorySize a b := by
  have hms := memorySize.isLt
  obtain ⟨hroom, hshort⟩ := h
  rw [emptyPagedBlock_nonneg_iff ha hab]
  omega

/-- Where the 32-bit difference is not below `-2 ^ 31`, only such holes pass it. -/
theorem FitsHole.of_passes {memorySize : Word} {a b : MemoryMap} (ha : a.hi % 4096 = 4095)
    (hab : a.hi < b.lo) (hsigned : memorySize.toNat + 0x2000 ≤ hole a b + 2 ^ 31)
    (h : 0 ≤ emptyPagedBlock memorySize a b) : FitsHole memorySize a b := by
  have hb := b.start.isLt
  have hms := memorySize.isLt
  have hlt : hole a b < 2 ^ 32 := by
    unfold hole MemoryMap.lo
    omega
  rw [emptyPagedBlock_nonneg_iff ha hab] at h
  unfold FitsHole
  omega

/-- After the last map the candidate is the page behind its guard page, or, when
that map is one page that touches the map before it, the page right behind it. -/
theorem carriedTop_last {pre : List MemoryMap} {last : MemoryMap} (h : Paged (pre ++ [last])) :
    (carriedTop 0#32 (pre ++ [last])).toNat = (last.hi + 0x1001) % 2 ^ 32 ∨
      (carriedTop 0#32 (pre ++ [last])).toNat = last.hi + 1 ∧
        ∃ a ∈ pre, a.hi + 0x1000 = last.hi := by
  have hlast := h.aligned last (by simp)
  have hord := h.lo_le_hi (show last ∈ pre ++ [last] by simp)
  rw [carriedTop_concat, raiseTop]
  split
  · exact .inl (newPagedAddr_toNat hlast.2)
  · rename_i hge
    have hge' : last.hi ≤ (carriedTop 0#32 pre).toNat := by
      unfold MemoryMap.hi
      bv_omega
    rcases carriedTop_eq 0#32 pre with hz | ⟨a, ha, hz⟩
    · rw [hz] at hge'
      simp only [BitVec.toNat_ofNat, Nat.zero_mod] at hge'
      omega
    · have hinc := h.hi_lt_last ha
      have hal := (h.aligned a (by simp [ha])).2
      rw [hz, newPagedAddr_toNat hal] at hge' ⊢
      have hlt := MemoryMap.hi_lt last
      exact .inr ⟨by omega, a, ha, by omega⟩

/-- The block that starts behind the guard page of `a` leaves a guard page on each
side of it when the hole behind `a` has room for that. -/
theorem Paged.hole_guard {pre post : List MemoryMap} {a b : MemoryMap} {n : Nat}
    (h : Paged (pre ++ a :: b :: post)) (hroom : n + 0x2000 ≤ hole a b) :
    ∀ m ∈ pre ++ a :: b :: post,
      m.hi + 0x1001 ≤ a.hi + 0x1001 ∨ a.hi + 0x1001 + n + 0x1000 ≤ m.lo := by
  intro m hm
  have hinc := h.increasing
  have hab : a.hi < b.lo := by
    have := (List.pairwise_append.mp hinc).2.1
    exact (List.pairwise_cons.mp this).1 b (by simp)
  have hb : a.hi + 0x1001 + n + 0x1000 ≤ b.lo := by
    unfold hole at hroom
    omega
  have hord := h.lo_le_hi hm
  rcases List.mem_append.mp hm with hpre | htail
  · have hma := (List.pairwise_append.mp hinc).2.2 m hpre a (by simp)
    have hord' := h.lo_le_hi (show a ∈ pre ++ a :: b :: post by simp)
    exact .inl (by omega)
  · rcases List.mem_cons.mp htail with rfl | htail
    · exact .inl le_rfl
    · rcases List.mem_cons.mp htail with rfl | hpost
      · exact .inr hb
      · have htl := (List.pairwise_append.mp hinc).2.1
        have hbm := (List.pairwise_cons.mp (List.pairwise_cons.mp htl).2).1 m hpost
        have hordb := h.lo_le_hi (show b ∈ pre ++ a :: b :: post by simp)
        exact .inr (by omega)

/-- Every map but the last ends before the last begins. -/
theorem Paged.hi_le_last {pre : List MemoryMap} {last : MemoryMap} (h : Paged (pre ++ [last])) :
    ∀ m ∈ pre ++ [last], m.hi ≤ last.hi := by
  intro m hm
  rcases List.mem_append.mp hm with hpre | hlast
  · exact (List.pairwise_append.mp h.sorted).2.2 m hpre last (by simp)
  · exact (List.mem_singleton.mp hlast) ▸ le_rfl

end Betavita.Hle
