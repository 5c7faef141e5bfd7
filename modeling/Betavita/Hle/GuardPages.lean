import Betavita.Hle.AllocatorRun
import Betavita.Memory.MapOrder
import Mathlib.Data.List.Induction

/-!
# memory_manager.cpp — the place of one block

`more_memory` on any list of whole pages, for sizes that its signed 32-bit test reads right:
it takes the first hole that has room for the block and two guard pages, and the top of the
list when there is none. The candidate it carries to the top skips a page that touches the
map before it, so whether a guard page is left there depends on how many such pages end the
list.
-/

namespace Betavita.Hle

open Memory Transition

/-! ## The order of the calls -/

/-- Mapping order does not matter: requests without overlaps that are mapped into an empty
list in two orders, whatever the sorts do, give the same list, so the same translations, the
same valid ranges and the same answers of `more_memory`. -/
theorem mapMemory_order {rs rs' : List MapRequest} {maps maps' : List MemoryMap}
    (hp : rs.Perm rs') (hord : ∀ r ∈ rs, r.start ≤ r.end_)
    (hapart : (rs.map MapRequest.map).Pairwise MemoryMap.Apart)
    (hrun : Steps MapsTo [] rs maps) (hrun' : Steps MapsTo [] rs' maps') :
    maps = maps' ∧
    (∀ address, getPointerUnchecked maps address = getPointerUnchecked maps' address) ∧
    (∀ start end_, isValidAddressRange maps start end_ = isValidAddressRange maps' start end_) ∧
    ∀ size, moreMemory maps size = moreMemory maps' size := by
  have heq := mapRun_unique hp hord hapart hrun hrun'
  subst heq
  exact ⟨rfl, fun _ => rfl, fun _ _ => rfl, fun _ => rfl⟩

/-- Two maps, in both orders. -/
theorem mapMemory_order_two :
    mapMemory (mapMemory [] "a" 0x10#32 0x1F#32 3#8) "b" 0x20#32 0x2F#32 3#8 =
      mapMemory (mapMemory [] "b" 0x20#32 0x2F#32 3#8) "a" 0x10#32 0x1F#32 3#8 := by
  have hrun : ∀ r r' : MapRequest, Steps MapsTo [] [r, r']
      (mapMemory (mapMemory [] r.name r.start r.end_ r.protection) r'.name r'.start r'.end_
        r'.protection) :=
    fun r r' => .snoc (.snoc .nil (mapMemory_mapsTo [] r)) (mapMemory_mapsTo _ r')
  have hapart : (MapRequest.map ⟨"a", 0x10#32, 0x1F#32, 3#8⟩).Apart
      (MapRequest.map ⟨"b", 0x20#32, 0x2F#32, 3#8⟩) :=
    (MemoryMap.apart_iff (by decide) (by decide)).mpr (by decide)
  exact (mapMemory_order (.swap _ _ _) (by decide) (by simpa using hapart) (hrun _ _)
    (hrun ⟨"b", 0x20#32, 0x2F#32, 3#8⟩ ⟨"a", 0x10#32, 0x1F#32, 3#8⟩)).1

/-! ## The signed test -/

/-- Sizes on which no 32-bit step of the walk misleads it: rounding the size up does not leave
32 bits, and no difference of a hole and the block leaves the signed range. -/
structure SizesFit (maps : List MemoryMap) (size : Word) : Prop where
  rounds : size.toNat + 0x1000 < 2 ^ 32
  block : (pagedSize size).toNat + 0x2000 ≤ 2 ^ 31
  holes : ∀ a b, [a, b] <:+: maps → hole a b < 2 ^ 31

/-- Hole `i`, between map `i` and the next one, has room for the block and two guard pages. -/
def TakesBlock (maps : List MemoryMap) (memorySize : Word) (i : Nat) : Prop :=
  ∃ a b, maps[i]? = some a ∧ maps[i + 1]? = some b ∧ memorySize.toNat + 0x2000 ≤ hole a b

section Walk

variable {maps : List MemoryMap} {size : Word}

theorem infix_pair_iff {x y : MemoryMap} :
    [x, y] <:+: maps ↔ ∃ i, maps[i]? = some x ∧ maps[i + 1]? = some y := by
  constructor
  · rintro ⟨pre, post, rfl⟩
    refine ⟨pre.length, ?_, ?_⟩ <;> simp
  · rintro ⟨i, hx, hy⟩
    refine ⟨maps.take i, maps.drop (i + 2), ?_⟩
    have hdrop : maps.drop i = x :: y :: maps.drop (i + 2) := by
      rw [← List.getElem_cons_drop (List.getElem?_eq_some_iff.mp hx).1,
        ← List.getElem_cons_drop (List.getElem?_eq_some_iff.mp hy).1]
      rw [(List.getElem?_eq_some_iff.mp hx).2, (List.getElem?_eq_some_iff.mp hy).2]
    rw [List.append_assoc, List.cons_append, List.cons_append, List.nil_append, ← hdrop,
      List.take_append_drop]

/-- On such sizes the signed test says whether the hole takes the block. -/
theorem SizesFit.passes_iff (hs : SizesFit maps size) (h : Paged maps) {a b : MemoryMap}
    (hab : [a, b] <:+: maps) :
    0 ≤ emptyPagedBlock (pagedSize size) a b ↔ (pagedSize size).toNat + 0x2000 ≤ hole a b := by
  obtain ⟨hal, hlt⟩ := h.infix_hole hab
  have hhole := hs.holes a b hab
  have hblock := hs.block
  constructor
  · intro hpass
    exact (FitsHole.of_passes hal hlt (by omega) hpass).1
  · intro hroom
    exact FitsHole.passes hal hlt ⟨hroom, by omega⟩

/-- The walk takes the first hole with room, or it carries its candidate to the end. -/
theorem moreMemoryLoop_firstFit (h : Paged maps) (hs : SizesFit maps size) :
    (∃ pre a b post, maps = pre ++ a :: b :: post ∧ (pagedSize size).toNat + 0x2000 ≤ hole a b ∧
      (∀ j < pre.length, ¬ TakesBlock maps (pagedSize size) j) ∧
      moreMemoryLoop (pagedSize size) maps 0#32 = newPagedAddr a) ∨
    ((∀ j, ¬ TakesBlock maps (pagedSize size) j) ∧
      moreMemoryLoop (pagedSize size) maps 0#32 = carriedTop 0#32 maps) := by
  rcases moreMemoryLoop_cases (pagedSize size) maps 0#32 with
    ⟨pre, a, b, post, hmaps, hpass, hearlier, hres⟩ | ⟨hnone, hres⟩
  · have hab : [a, b] <:+: maps := ⟨pre, post, by rw [hmaps]; simp⟩
    refine .inl ⟨pre, a, b, post, hmaps, (hs.passes_iff h hab).mp hpass, fun j hj htakes => ?_,
      hres⟩
    obtain ⟨x, y, hx, hy, hroom⟩ := htakes
    have hxy : [x, y] <:+: maps := infix_pair_iff.mpr ⟨j, hx, hy⟩
    -- holes in front of `a` failed the test
    have hsplit : maps = (pre ++ [a]) ++ (b :: post) := by simp [hmaps]
    have hlen : (pre ++ [a]).length = pre.length + 1 := by simp
    rw [hsplit, List.getElem?_append_left (by omega)] at hx hy
    have hpre : [x, y] <:+: pre ++ [a] := infix_pair_iff.mpr ⟨j, hx, hy⟩
    exact absurd ((hs.passes_iff h hxy).mpr hroom) (not_le.mpr (hearlier x y hpre))
  · refine .inr ⟨fun j htakes => ?_, hres⟩
    obtain ⟨x, y, hx, hy, hroom⟩ := htakes
    have hxy : [x, y] <:+: maps := infix_pair_iff.mpr ⟨j, hx, hy⟩
    exact absurd ((hs.passes_iff h hxy).mpr hroom) (not_le.mpr (hnone x y hxy))

/-- The two places `more_memory` can return: behind the guard page of the map before the first
hole with room, where the block is guarded on both sides, or what it carried to the end. -/
theorem moreMemory_firstFit (h : Paged maps) (hne : maps ≠ []) (hs : SizesFit maps size)
    (hcarried : carriedTop 0#32 maps ≠ 0) :
    (∃ i a, maps[i]? = some a ∧ TakesBlock maps (pagedSize size) i ∧
      (∀ j < i, ¬ TakesBlock maps (pagedSize size) j) ∧
      moreMemory maps size = (newPagedAddr a, pagedSize size) ∧
      (newPagedAddr a).toNat = a.hi + 0x1001 ∧
      ∀ m ∈ maps, m.hi + 0x1001 ≤ (newPagedAddr a).toNat ∨
        (newPagedAddr a).toNat + (pagedSize size).toNat + 0x1000 ≤ m.lo) ∨
    ((∀ j, ¬ TakesBlock maps (pagedSize size) j) ∧
      moreMemory maps size = (carriedTop 0#32 maps, pagedSize size)) := by
  rcases moreMemoryLoop_firstFit h hs with
    ⟨pre, a, b, post, rfl, hroom, hleast, hres⟩ | ⟨hnone, hres⟩
  · have htakes : TakesBlock (pre ++ a :: b :: post) (pagedSize size) pre.length :=
      ⟨a, b, by simp, by simp, hroom⟩
    obtain ⟨haddr, hplaced⟩ := placed_of_hole h hs.rounds hroom
    refine .inl ⟨pre.length, a, by simp, htakes, hleast, ?_, haddr, ?_⟩
    · rw [moreMemory_of_loop hne hres, if_pos hplaced.nonzero]
    · rw [haddr]
      exact h.hole_guard hroom
  · refine .inr ⟨hnone, ?_⟩
    rw [moreMemory_of_loop hne hres, if_pos hcarried]

end Walk

/-! ## First fit -/

/-- Where a first-fit search puts the block: behind the guard page of the map before the first
hole with room, or right behind the last map, with or without a guard page between. -/
def FirstFitAddress (maps : List MemoryMap) (last : MemoryMap) (memorySize : Word)
    (address : Nat) : Prop :=
  (∃ i a, maps[i]? = some a ∧ TakesBlock maps memorySize i ∧
    (∀ j < i, ¬ TakesBlock maps memorySize j) ∧ address = a.hi + 0x1001) ∨
  ((∀ j, ¬ TakesBlock maps memorySize j) ∧ last.hi + 1 ≤ address ∧ address ≤ last.hi + 0x1001)

section Place

variable {pre : List MemoryMap} {last : MemoryMap} {size : Word}

/-- With room for it above the last map, the carried candidate does not wrap. -/
theorem carriedTop_bounds (h : Paged (pre ++ [last])) (hroom : last.hi + 0x1001 < 2 ^ 32) :
    last.hi + 1 ≤ (carriedTop 0#32 (pre ++ [last])).toNat ∧
      (carriedTop 0#32 (pre ++ [last])).toNat ≤ last.hi + 0x1001 := by
  rcases carriedTop_last h with hc | ⟨hc, _⟩ <;> omega

theorem carriedTop_ne_zero (h : Paged (pre ++ [last])) (hroom : last.hi + 0x1001 < 2 ^ 32) :
    carriedTop 0#32 (pre ++ [last]) ≠ 0 := by
  intro hz
  have hbounds := carriedTop_bounds h hroom
  rw [hz] at hbounds
  simp at hbounds

/-- `more_memory` places first-fit: for sizes that fit and with room above the last map, it
returns the rounded size with the address of first fit, and the block meets no map. -/
theorem moreMemory_firstFitAddress (h : Paged (pre ++ [last])) (hs : SizesFit (pre ++ [last]) size)
    (hroom : last.hi + 0x1001 + (pagedSize size).toNat ≤ 2 ^ 32) :
    ∃ address, moreMemory (pre ++ [last]) size = (address, pagedSize size) ∧
      FirstFitAddress (pre ++ [last]) last (pagedSize size) address.toNat ∧
      ∀ m ∈ pre ++ [last],
        m.hi < address.toNat ∨ address.toNat + (pagedSize size).toNat ≤ m.lo := by
  obtain ⟨_, hpos, _⟩ := pagedSize_bounds hs.rounds
  have hroom' : last.hi + 0x1001 < 2 ^ 32 := by omega
  rcases moreMemory_firstFit h (by simp) hs (carriedTop_ne_zero h hroom') with
    ⟨i, a, ha, htakes, hleast, hres, haddr, hguard⟩ | ⟨hnone, hres⟩
  · refine ⟨_, hres, .inl ⟨i, a, ha, htakes, hleast, haddr⟩, fun m hm => ?_⟩
    have hm' := hguard m hm
    omega
  · obtain ⟨hlow, hhigh⟩ := carriedTop_bounds h hroom'
    refine ⟨_, hres, .inr ⟨hnone, hlow, hhigh⟩, fun m hm => ?_⟩
    have hle := h.hi_le_last m hm
    exact .inl (by omega)

/-! ## Guard pages -/

/-- The number of one-page maps at the end of the list, from the last one back, each of which
touches the map before it. -/
def touchingPages : List MemoryMap → Nat
  | b :: a :: rest =>
    if b.lo = a.hi + 1 ∧ b.hi = b.lo + 0xFFF then touchingPages (a :: rest) + 1 else 0
  | _ => 0

theorem touchingPages_concat (pre : List MemoryMap) (a last : MemoryMap) :
    touchingPages (pre ++ [a] ++ [last]).reverse =
      if last.lo = a.hi + 1 ∧ last.hi = last.lo + 0xFFF then
        touchingPages (pre ++ [a]).reverse + 1 else 0 := by
  simp [touchingPages]

/-- A candidate below the end of the last map is moved behind the page that follows it. -/
theorem carriedTop_raised (h : Paged (pre ++ [last])) (hroom : last.hi + 0x1001 < 2 ^ 32)
    (hlt : (carriedTop 0#32 pre).toNat < last.hi) :
    (carriedTop 0#32 (pre ++ [last])).toNat = last.hi + 0x1001 := by
  have hlast := h.aligned last (by simp)
  have hbelow : carriedTop 0#32 pre < last.end_ := hlt
  rw [carriedTop_concat, raiseTop, if_pos hbelow, newPagedAddr_toNat hlast.2]
  omega

/-- Any other candidate stays. -/
theorem carriedTop_kept (hge : last.hi ≤ (carriedTop 0#32 pre).toNat) :
    carriedTop 0#32 (pre ++ [last]) = carriedTop 0#32 pre := by
  have hbelow : ¬ carriedTop 0#32 pre < last.end_ := Nat.not_lt.mpr hge
  rw [carriedTop_concat, raiseTop, if_neg hbelow]

/-- A page that touches the map before it is passed over when a guard page was left there, and
not when it was not. -/
theorem carriedTop_touching (h : Paged (pre ++ [last])) (hroom : last.hi + 0x1001 < 2 ^ 32) :
    (carriedTop 0#32 (pre ++ [last])).toNat =
      if Even (touchingPages (pre ++ [last]).reverse) then last.hi + 0x1001 else last.hi + 1 := by
  have hle := h.lo_le_hi (show last ∈ pre ++ [last] by simp)
  have hlast := h.aligned last (by simp)
  induction pre using List.reverseRecOn generalizing last with
  | nil =>
    rw [carriedTop_raised h hroom (show 0 < last.hi by omega)]
    simp [touchingPages]
  | append_singleton pre a ih =>
    have hinc := h.hi_lt_last (show a ∈ pre ++ [a] by simp)
    have ha := h.init.aligned a (by simp)
    have hcarried := ih h.init (by omega) (h.init.lo_le_hi (by simp)) ha
    rw [touchingPages_concat]
    by_cases htouch : last.lo = a.hi + 1 ∧ last.hi = last.lo + 0xFFF
    · rw [if_pos htouch]
      by_cases heven : Even (touchingPages (pre ++ [a]).reverse)
      · -- the candidate is behind this page already
        have hodd : ¬ Even (touchingPages (pre ++ [a]).reverse + 1) := by
          rwa [Nat.even_add_one, not_not]
        rw [if_pos heven] at hcarried
        rw [if_neg hodd, carriedTop_kept (by omega), hcarried]
        omega
      · have hodd : Even (touchingPages (pre ++ [a]).reverse + 1) := Nat.even_add_one.mpr heven
        rw [if_neg heven] at hcarried
        rw [if_pos hodd, carriedTop_raised h hroom (by omega)]
    · have hbound := (carriedTop_bounds h.init (by omega)).2
      rw [if_neg htouch, if_pos (by decide), carriedTop_raised h hroom (by omega)]

/-- A block that `more_memory` found, on whole pages, with a free page between it and every
map, below and above. -/
def GuardPages (maps : List MemoryMap) (size : Word) : Prop :=
  ∃ address, moreMemory maps size = (address, pagedSize size) ∧ address.toNat % 4096 = 0 ∧
    ∀ m ∈ maps, m.hi + 0x1001 ≤ address.toNat ∨
      address.toNat + (pagedSize size).toNat + 0x1000 ≤ m.lo

/-- Guard pages: there is one on both sides exactly when some hole has room for the block and
two pages, or an even number of one-page maps, each touching the map before it, end the list. -/
theorem moreMemory_guardPages_iff (h : Paged (pre ++ [last]))
    (hs : SizesFit (pre ++ [last]) size)
    (hroom : last.hi + 0x2001 + (pagedSize size).toNat ≤ 2 ^ 32) :
    GuardPages (pre ++ [last]) size ↔
      (∃ i, TakesBlock (pre ++ [last]) (pagedSize size) i) ∨
        Even (touchingPages (pre ++ [last]).reverse) := by
  have hroom' : last.hi + 0x1001 < 2 ^ 32 := by omega
  have hcarried := carriedTop_touching h hroom'
  rcases moreMemory_firstFit h (by simp) hs (carriedTop_ne_zero h hroom') with
    ⟨i, a, _, htakes, _, hres, _, hguard⟩ | ⟨hnone, hres⟩
  · exact iff_of_true ⟨_, hres, newPagedAddr_mod a, hguard⟩ (.inl ⟨i, htakes⟩)
  · have hlast : last ∈ pre ++ [last] := by simp
    obtain ⟨_, hal⟩ := h.aligned last hlast
    have hle := h.lo_le_hi hlast
    constructor
    · intro hguarded
      obtain ⟨address, haddr, _, hguard⟩ := hguarded
      rw [hres] at haddr
      cases haddr
      right
      by_contra hodd
      rw [if_neg hodd] at hcarried
      have hside := hguard last hlast
      omega
    · rintro (⟨i, htakes⟩ | heven)
      · exact absurd htakes (hnone i)
      · rw [if_pos heven] at hcarried
        refine ⟨_, hres, by omega, fun m hm => ?_⟩
        have := h.hi_le_last m hm
        exact .inl (by omega)

end Place

/-- A map of whole pages. -/
def pageMap (start end_ : Word) : MemoryMap := .fresh "page" start end_ 3#8

/-- Three pages, with a hole of one page and a hole of twelve. -/
def threePages : List MemoryMap :=
  [pageMap 0x1000#32 0x1FFF#32, pageMap 0x3000#32 0x3FFF#32] ++ [pageMap 0x10000#32 0x10FFF#32]

theorem threePages_paged : Paged threePages where
  laid := by
    have hapart : threePages.Pairwise (fun a b => a.hi < b.lo) := by decide
    have hordered : ∀ it ∈ threePages, it.start ≤ it.end_ := by decide
    refine ⟨hordered, hapart.imp_of_mem fun ha hb hlt => ?_⟩
    exact (MemoryMap.apart_iff (hordered _ ha) (hordered _ hb)).mpr (.inl hlt)
  aligned := by decide
  sorted := by decide

theorem threePages_sizesFit (size : Word) (hrounds : size.toNat + 0x1000 < 2 ^ 32)
    (hblock : (pagedSize size).toNat + 0x2000 ≤ 2 ^ 31) : SizesFit threePages size := by
  refine ⟨hrounds, hblock, fun a b hab => ?_⟩
  have hlow : ∀ it ∈ threePages, it.lo < 2 ^ 31 := by decide
  have hb := hlow b (hab.mem (by simp))
  unfold hole
  omega

/-- The second hole takes a block of two pages, and none takes one of thirteen. -/
theorem moreMemory_firstFitAddress_pages :
    FirstFitAddress threePages (pageMap 0x10000#32 0x10FFF#32) 0x2000#32 0x5000 ∧
      FirstFitAddress threePages (pageMap 0x10000#32 0x10FFF#32) 0xD000#32 0x12000 := by
  constructor
  · obtain ⟨address, haddr, hfirst, _⟩ := moreMemory_firstFitAddress threePages_paged
      (threePages_sizesFit 0x1000#32 (by decide) (by decide)) (by decide)
    have hrun : moreMemory threePages 0x1000#32 = (0x5000#32, pagedSize 0x1000#32) := by decide
    cases hrun.symm.trans haddr
    exact hfirst
  · obtain ⟨address, haddr, hfirst, _⟩ := moreMemory_firstFitAddress threePages_paged
      (threePages_sizesFit 0xC000#32 (by decide) (by decide)) (by decide)
    have hrun : moreMemory threePages 0xC000#32 = (0x12000#32, pagedSize 0xC000#32) := by decide
    cases hrun.symm.trans haddr
    exact hfirst

/-- Both blocks are guarded. -/
theorem moreMemory_guardPages_pages :
    GuardPages threePages 0x1000#32 ∧ GuardPages threePages 0xC000#32 := by
  constructor
  · refine (moreMemory_guardPages_iff threePages_paged
      (threePages_sizesFit _ (by decide) (by decide)) (by decide)).mpr (.inl ⟨1, ?_⟩)
    exact ⟨pageMap 0x3000#32 0x3FFF#32, pageMap 0x10000#32 0x10FFF#32, rfl, rfl, by decide⟩
  · exact (moreMemory_guardPages_iff threePages_paged
      (threePages_sizesFit _ (by decide) (by decide)) (by decide)).mpr (.inr (by decide))

/-- Behind two pages that touch, the block touches the second. -/
theorem moreMemory_touches_page :
    ¬ GuardPages [pageMap 0x1000#32 0x1FFF#32, pageMap 0x2000#32 0x2FFF#32] 0x1000#32 := by
  intro h
  obtain ⟨address, haddr, _, hguard⟩ := h
  have hrun : moreMemory [pageMap 0x1000#32 0x1FFF#32, pageMap 0x2000#32 0x2FFF#32] 0x1000#32 =
      (0x3000#32, 0x2000#32) := by decide
  cases hrun.symm.trans haddr
  exact absurd (hguard (pageMap 0x2000#32 0x2FFF#32) (by simp)) (by decide)

end Betavita.Hle
