import Betavita.Loader.SegmentMap

/-!
# What the maps of an image hold

A segment's map is rounded up to a page, and its bytes are copied to the map that answers
for its address by then. Maps of segments that share a page overlap, and which of them
answers depends on their ends and, where these are equal, on what `std::sort` made of them:
`MayAnswer` says which may. `Layout` says what the maps hold, and a run of the mapping loop
goes from one `Outcome` to the next.
-/

namespace Betavita.Loader

open Memory ByteBuffer Transition UnstableSort

/-! ## Which map answers -/

/-- The bounds of the map of a segment, and the size of its buffer. -/
def DecryptedSegment.vaddr (s : DecryptedSegment) : Word := s.phdr.pVaddr

def DecryptedSegment.pageEnd (s : DecryptedSegment) : Word := pageAlignedTopAddressEnd s.phdr

def DecryptedSegment.mapSize (s : DecryptedSegment) : Nat := (s.pageEnd - s.vaddr + 1#32).toNat

/-- The map of the segment covers the address. -/
def DecryptedSegment.Covers (s : DecryptedSegment) (a : Word) : Prop := s.vaddr ≤ a ∧ a ≤ s.pageEnd

instance (s : DecryptedSegment) (a : Word) : Decidable (s.Covers a) :=
  inferInstanceAs (Decidable (_ ∧ _))

/-- Among the maps of the first `n` segments, that of segment `j` may answer for the address:
of those that cover it, none ends before. Where several have the least end, the sort decides. -/
structure MayAnswer (segments : List DecryptedSegment) (n j : Nat) (t : DecryptedSegment)
    (a : Word) : Prop where
  lt : j < n
  segment : segments[j]? = some t
  covers : t.Covers a
  first : ∀ i < n, ∀ u, segments[i]? = some u → u.Covers a → t.pageEnd ≤ u.pageEnd

/-- One segment of an image: a loadable one, whose buffer has the bytes of the file and
whose range ends within the address space. -/
structure DecryptedSegment.IsLoad (s : DecryptedSegment) : Prop where
  canLoad : s.canLoad = true
  notRelocatable : s.relocatable = false
  length : s.segmentLength = s.phdr.pFilesz.toNat
  filesz : s.phdr.pFilesz.toNat ≤ s.phdr.pMemsz.toNat
  buffer : s.segmentLength ≤ s.data.length
  noWrap : s.phdr.pVaddr.toNat + s.phdr.pMemsz.toNat ≤ 2 ^ 32

/-- The byte range `[p_vaddr, p_vaddr + p_memsz)`. -/
def DecryptedSegment.byteRange (s : DecryptedSegment) : Set Nat :=
  Set.Ico s.phdr.pVaddr.toNat (s.phdr.pVaddr.toNat + s.phdr.pMemsz.toNat)

/-- The loadable segments of an image, with disjoint ranges. -/
structure IsImage (segments : List DecryptedSegment) : Prop where
  load : ∀ s ∈ segments, s.IsLoad
  apart : segments.Pairwise fun a b => Disjoint a.byteRange b.byteRange

/-- The bytes of the segment fit the buffer of the map of `t` from its address on. -/
def DecryptedSegment.FitsIn (s t : DecryptedSegment) : Prop :=
  s.segmentLength = 0 ∨ (s.vaddr - t.vaddr).toNat + s.segmentLength ≤ t.mapSize

instance (s t : DecryptedSegment) : Decidable (s.FitsIn t) := inferInstanceAs (Decidable (_ ∨ _))

/-! ## What the maps hold -/

section Image

variable {segments : List DecryptedSegment} {n : Nat} {a : Word}

theorem DecryptedSegment.IsLoad.toNat_add {s : DecryptedSegment} (h : s.IsLoad) {k : Nat}
    (hk : k < s.phdr.pMemsz.toNat) :
    (s.vaddr + BitVec.ofNat 32 k).toNat = s.vaddr.toNat + k := by
  have hwrap := h.noWrap
  rw [BitVec.toNat_add, BitVec.toNat_ofNat]
  unfold DecryptedSegment.vaddr
  omega

/-- The bytes of the file are in memory. -/
theorem DecryptedSegment.IsLoad.lt_memsz {s : DecryptedSegment} (h : s.IsLoad) {k : Nat}
    (hk : k < s.segmentLength) : k < s.phdr.pMemsz.toNat := by
  have hlength := h.length
  have hfilesz := h.filesz
  omega

/-- An address of the image is one byte of one segment. -/
theorem IsImage.byte_unique (h : IsImage segments) {i i' k k' : Nat} {s s' : DecryptedSegment}
    (hs : segments[i]? = some s) (hs' : segments[i']? = some s')
    (hk : k < s.phdr.pMemsz.toNat) (hk' : k' < s'.phdr.pMemsz.toNat)
    (ha : s.vaddr + BitVec.ofNat 32 k = s'.vaddr + BitVec.ofNat 32 k') : i = i' ∧ k = k' := by
  have hload := h.load s (List.mem_of_getElem? hs)
  have hload' := h.load s' (List.mem_of_getElem? hs')
  have hnat : s.vaddr.toNat + k = s'.vaddr.toNat + k' := by
    rw [← hload.toNat_add hk, ← hload'.toNat_add hk', ha]
  have hmem : s.vaddr.toNat + k ∈ s.byteRange := ⟨Nat.le_add_right _ _, Nat.add_lt_add_left hk _⟩
  have hmem' : s.vaddr.toNat + k ∈ s'.byteRange :=
    hnat ▸ ⟨Nat.le_add_right _ _, Nat.add_lt_add_left hk' _⟩
  obtain ⟨hi, rfl⟩ := List.getElem?_eq_some_iff.mp hs
  obtain ⟨hi', rfl⟩ := List.getElem?_eq_some_iff.mp hs'
  have hapart := List.pairwise_iff_getElem.mp h.apart
  rcases Nat.lt_trichotomy i i' with hlt | rfl | hgt
  · exact absurd hmem' (Set.disjoint_left.mp (hapart i i' hi hi' hlt) hmem)
  · exact ⟨rfl, by omega⟩
  · exact absurd hmem (Set.disjoint_left.mp (hapart i' i hi' hi hgt) hmem')

/-- A segment with an address has a map that covers it. -/
theorem DecryptedSegment.IsLoad.covers {s : DecryptedSegment} (h : s.IsLoad) {k : Nat}
    (hk : k < s.phdr.pMemsz.toNat) : s.Covers (s.vaddr + BitVec.ofNat 32 k) := by
  have hwrap := h.noWrap
  have hround : ((s.phdr.pVaddr + s.phdr.pMemsz + 0xFFF#32) &&& ~~~0xFFF#32).toNat =
      (s.phdr.pVaddr + s.phdr.pMemsz + 0xFFF#32).toNat / 4096 * 4096 := Paging.toNat_pageDown _
  have hend : s.vaddr.toNat + k ≤ s.pageEnd.toNat := by
    unfold DecryptedSegment.vaddr DecryptedSegment.pageEnd pageAlignedTopAddressEnd
    have hsum : (s.phdr.pVaddr + s.phdr.pMemsz + 0xFFF#32).toNat =
        (s.phdr.pVaddr.toNat + s.phdr.pMemsz.toNat + 4095) % 2 ^ 32 := by
      simp only [BitVec.toNat_add, BitVec.reduceToNat]
      omega
    -- the rounded end is past the range, unless it wraps to the end of the address space
    rw [BitVec.toNat_sub, hround, hsum]
    simp only [BitVec.reduceToNat]
    omega
  constructor
  · show s.vaddr.toNat ≤ (s.vaddr + BitVec.ofNat 32 k).toNat
    rw [h.toNat_add hk]
    omega
  · show (s.vaddr + BitVec.ofNat 32 k).toNat ≤ s.pageEnd.toNat
    rw [h.toNat_add hk]
    exact hend

/-- A loadable segment is mapped. -/
theorem DecryptedSegment.IsLoad.isMapped {s : DecryptedSegment} (h : s.IsLoad) :
    s.isMapped = true := by
  rw [DecryptedSegment.isMapped, h.canLoad, h.notRelocatable]
  rfl

end Image

/-- Byte `k` of segment `i` was copied to the map of segment `j`, where it has the address
`a`; `dest` says where the segments were copied to. -/
structure CopiesTo (segments : List DecryptedSegment) (dest : Nat → Option Nat) (i : Nat)
    (s : DecryptedSegment) (k j : Nat) (a : Word) : Prop where
  target : dest i = some j
  segment : segments[i]? = some s
  byte : k < s.segmentLength
  address : s.vaddr + BitVec.ofNat 32 k = a

/-- A map of the list, with the segment it was made for and the place of that in the file. -/
structure Placed where
  index : Nat
  segment : DecryptedSegment
  map : MemoryMap

/-- The map is that of its segment, and holds the bytes that were copied to it, and zeros. -/
structure Placed.Holds (segments : List DecryptedSegment) (dest : Nat → Option Nat)
    (e : Placed) : Prop where
  segment : segments[e.index]? = some e.segment
  start : e.map.start = e.segment.vaddr
  end_ : e.map.end_ = e.segment.pageEnd
  copied : ∀ o < e.map.data.length, ∀ i s k,
    CopiesTo segments dest i s k e.index (e.segment.vaddr + BitVec.ofNat 32 o) →
    e.map.data[o]? = s.data[k]?
  zero : ∀ o < e.map.data.length,
    (∀ i s k, ¬ CopiesTo segments dest i s k e.index (e.segment.vaddr + BitVec.ofNat 32 o)) →
    e.map.data[o]? = some 0

/-- Segment `i` went to a map that may have answered for its address, and nowhere only if
none covered it. -/
def Destination (segments : List DecryptedSegment) (i : Nat) : Option Nat → Prop
  | some j => ∀ s, segments[i]? = some s → ∃ t, MayAnswer segments (i + 1) j t s.vaddr
  | none => ∀ s, segments[i]? = some s → ∀ j t, ¬ MayAnswer segments (i + 1) j t s.vaddr

/-- The map list after the first `m` segments were mapped and the first `n` copied. -/
structure Layout (segments : List DecryptedSegment) (m n : Nat) (dest : Nat → Option Nat)
    (order : List Placed) : Prop where
  holds : ∀ e ∈ order, e.Holds segments dest
  lt : ∀ e ∈ order, e.index < m
  all : ∀ j < m, ∃ e ∈ order, e.index = j
  distinct : order.Pairwise fun e e' => e.index ≠ e'.index
  sorted : order.Pairwise fun e e' => e.segment.pageEnd ≤ e'.segment.pageEnd
  copied : ∀ i < n, Destination segments i (dest i)
  pending : ∀ i, n ≤ i → dest i = none

/-- The segment whose map is the first that covers the address. -/
def owner (order : List Placed) (a : Word) : Option Nat :=
  (order.find? fun e => decide (e.segment.Covers a)).map Placed.index

section Layout

variable {segments : List DecryptedSegment} {m n : Nat} {dest : Nat → Option Nat}
  {order : List Placed}

theorem Placed.Holds.length {e : Placed} (h : e.Holds segments dest) :
    e.map.data.length = e.segment.mapSize := by
  rw [e.map.data_length, e.map.size_eq, h.start, h.end_]
  rfl

theorem Placed.Holds.covers_iff {e : Placed} (h : e.Holds segments dest) {a : Word} :
    e.map.Covers a ↔ e.segment.Covers a := by
  rw [MemoryMap.Covers, h.start, h.end_]
  rfl

/-! ### Who owns an address -/

theorem owner_eq_some {a : Word} {j : Nat} :
    owner order a = some j ↔ ∃ (q : Nat) (e : Placed), order[q]? = some e ∧ e.index = j ∧
      e.segment.Covers a ∧ ∀ q' < q, ∀ e' : Placed, order[q']? = some e' →
        ¬ e'.segment.Covers a := by
  simp only [owner, Option.map_eq_some_iff, List.find?_eq_some_iff_getElem]
  constructor
  · rintro ⟨e, ⟨hcov, q, hq, rfl, hfirst⟩, hindex⟩
    refine ⟨q, order[q], List.getElem?_eq_getElem hq, hindex, of_decide_eq_true hcov, ?_⟩
    intro q' hq' e' he' hc
    obtain ⟨_, rfl⟩ := List.getElem?_eq_some_iff.mp he'
    simpa [hc] using hfirst q' hq'
  · rintro ⟨q, e, he, hindex, hcov, hfirst⟩
    obtain ⟨hq, rfl⟩ := List.getElem?_eq_some_iff.mp he
    refine ⟨order[q], ⟨decide_eq_true hcov, q, hq, rfl, fun q' hq' => ?_⟩, hindex⟩
    simpa using hfirst q' hq' _ (List.getElem?_eq_getElem (hq'.trans hq))

theorem owner_eq_none {a : Word} :
    owner order a = none ↔ ∀ e ∈ order, ¬ e.segment.Covers a := by
  simp [owner]

/-- The owner may answer. -/
theorem Layout.owner_mayAnswer (h : Layout segments m n dest order) {a : Word} {j : Nat}
    (hj : owner order a = some j) : ∃ t, MayAnswer segments m j t a := by
  obtain ⟨q, e, he, rfl, hcov, hfirst⟩ := owner_eq_some.mp hj
  have hmem := List.mem_of_getElem? he
  refine ⟨e.segment, h.lt e hmem, (h.holds e hmem).segment, hcov, fun i hi u hu hcu => ?_⟩
  -- the map of segment `i` is in the list too, and not in front of the owner's
  obtain ⟨e', hmem', rfl⟩ := h.all i hi
  obtain rfl : e'.segment = u := Option.some.inj ((h.holds e' hmem').segment.symm.trans hu)
  obtain ⟨q', hq', heq⟩ := List.getElem_of_mem hmem'
  have he' : order[q']? = some e' := by rw [List.getElem?_eq_getElem hq', heq]
  rcases Nat.lt_trichotomy q' q with hlt | rfl | hgt
  · exact absurd hcu (hfirst q' hlt e' he')
  · cases he.symm.trans he'
    exact BitVec.le_refl _
  · obtain ⟨hq, rfl⟩ := List.getElem?_eq_some_iff.mp he
    have hsorted := List.pairwise_iff_getElem.mp h.sorted q q' hq hq' hgt
    rwa [heq] at hsorted

theorem Layout.not_mayAnswer (h : Layout segments m n dest order) {a : Word}
    (hnone : owner order a = none) {j : Nat} {t : DecryptedSegment} :
    ¬ MayAnswer segments m j t a := by
  intro hans
  obtain ⟨e, hmem, rfl⟩ := h.all j hans.lt
  obtain rfl : e.segment = t :=
    Option.some.inj ((h.holds e hmem).segment.symm.trans hans.segment)
  exact owner_eq_none.mp hnone e hmem hans.covers

theorem Layout.destination (h : Layout segments (n + 1) n dest order) {s : DecryptedSegment}
    (hs : segments[n]? = some s) : Destination segments n (owner order s.vaddr) := by
  cases howner : owner order s.vaddr with
  | some j =>
    intro s' hs'
    cases hs.symm.trans hs'
    exact h.owner_mayAnswer howner
  | none =>
    intro s' hs' j t
    cases hs.symm.trans hs'
    exact h.not_mayAnswer howner

/-- What `get_pointer_unchecked` finds is the map of the owner. -/
theorem Layout.pointer (h : Layout segments m n dest order) {a : Word} {p : HostPtr}
    (hp : getPointerUnchecked (order.map Placed.map) a = some p) :
    ∃ e, order[p.map]? = some e ∧ p.offset = (a - e.segment.vaddr).toNat ∧
      e.segment.Covers a ∧ owner order a = some e.index := by
  obtain ⟨it, hit, hcov, hoff, hfirst⟩ := getPointerUnchecked_eq_some.mp hp
  rw [List.getElem?_map] at hit
  obtain ⟨e, he, rfl⟩ := Option.map_eq_some_iff.mp hit
  have hholds := h.holds e (List.mem_of_getElem? he)
  have hcov' := hholds.covers_iff.mp hcov
  refine ⟨e, he, hholds.start ▸ hoff, hcov', owner_eq_some.mpr
    ⟨p.map, e, he, rfl, hcov', fun q hq e' he' hc => ?_⟩⟩
  have hmap : (order.map Placed.map)[q]? = some e'.map := by rw [List.getElem?_map, he']; rfl
  exact hfirst q hq e'.map hmap ((h.holds e' (List.mem_of_getElem? he')).covers_iff.mpr hc)

theorem Layout.pointer_none (h : Layout segments m n dest order) {a : Word}
    (hp : getPointerUnchecked (order.map Placed.map) a = none) : owner order a = none :=
  owner_eq_none.mpr fun e he hc => getPointerUnchecked_eq_none.mp hp e.map
    (List.mem_map_of_mem he) ((h.holds e he).covers_iff.mpr hc)

/-! ### Mapping a segment -/

theorem Layout.nil (segments : List DecryptedSegment) :
    Layout segments 0 0 (fun _ => none) [] :=
  ⟨by simp, by simp, by simp, .nil, .nil, by simp, fun _ _ => rfl⟩

/-- What was copied went to the map of the same segment or of an earlier one. -/
theorem Layout.dest_le (h : Layout segments m n dest order) {i j : Nat} {s : DecryptedSegment}
    (hs : segments[i]? = some s) (hj : dest i = some j) : i < n ∧ j ≤ i := by
  have hlt : i < n := by
    by_contra hge
    rw [h.pending i (Nat.le_of_not_lt hge)] at hj
    cases hj
  have hdest := h.copied i hlt
  rw [hj] at hdest
  obtain ⟨t, hans⟩ := hdest s hs
  exact ⟨hlt, Nat.le_of_lt_succ hans.lt⟩

/-- The zeroed map of the segment at position `n` of the file. -/
def Placed.fresh (n : Nat) (s : DecryptedSegment) : Placed := ⟨n, s, s.request.map⟩

/-- Nothing was copied to the map before it was there. -/
theorem Layout.fresh_holds (h : Layout segments n n dest order) {s : DecryptedSegment}
    (hs : segments[n]? = some s) : (Placed.fresh n s).Holds segments dest where
  segment := hs
  start := rfl
  end_ := rfl
  copied := by
    intro o ho i s' k hcopies
    have hle := h.dest_le hcopies.segment hcopies.target
    have hindex : n ≤ i := hle.2
    omega
  zero := fun o ho _ => List.getElem?_replicate_of_lt
    (by simpa [Placed.fresh, MapRequest.map, MemoryMap.fresh] using ho)

/-- The order in which `std::sort` leaves the maps. -/
def Placed.EndsBy (e e' : Placed) : Prop := e.map.hi ≤ e'.map.hi

instance : DecidableRel Placed.EndsBy := fun _ _ => inferInstanceAs (Decidable (_ ≤ _))

instance : Std.Total Placed.EndsBy := ⟨fun _ _ => Nat.le_total _ _⟩

instance : IsTrans Placed Placed.EndsBy := ⟨fun _ _ _ => Nat.le_trans⟩

/-- Whatever the sort makes of the maps and the new one. -/
theorem Layout.sorts (h : Layout segments n n dest order) {s : DecryptedSegment}
    (hs : segments[n]? = some s) {mapped : List Placed}
    (hsort : SortsTo Placed.EndsBy (order ++ [.fresh n s]) mapped) :
    Layout segments (n + 1) n dest mapped := by
  have hmem : ∀ e, e ∈ mapped ↔ e ∈ order ∨ e = .fresh n s := by
    intro e
    rw [hsort.perm.mem_iff, List.mem_append, List.mem_singleton]
  have hholds : ∀ e ∈ mapped, e.Holds segments dest := by
    intro e he
    rcases (hmem e).mp he with he | rfl
    · exact h.holds e he
    · exact h.fresh_holds hs
  refine ⟨hholds, fun e he => ?_, fun j hj => ?_, ?_, ?_, h.copied, h.pending⟩
  · rcases (hmem e).mp he with he | rfl
    · exact Nat.lt_succ_of_lt (h.lt e he)
    · exact Nat.lt_succ_self n
  · rcases Nat.lt_succ_iff_lt_or_eq.mp hj with hlt | rfl
    · obtain ⟨e, he, hindex⟩ := h.all j hlt
      exact ⟨e, (hmem e).mpr (.inl he), hindex⟩
    · exact ⟨.fresh j s, (hmem _).mpr (.inr rfl), rfl⟩
  · refine (hsort.perm.pairwise_iff fun hne => hne.symm).mpr ?_
    refine List.pairwise_append.mpr ⟨h.distinct, List.pairwise_singleton _ _, ?_⟩
    intro e he e' he'
    obtain rfl := List.mem_singleton.mp he'
    exact Nat.ne_of_lt (h.lt e he)
  · refine hsort.ordered.imp_of_mem fun {e e'} he he' hends => ?_
    rw [← (hholds e he).end_, ← (hholds e' he').end_]
    exact hends

/-- Every outcome of `map_memory` is a layout. -/
theorem Layout.map (h : Layout segments n n dest order) {s : DecryptedSegment}
    (hs : segments[n]? = some s) {maps₁ : List MemoryMap}
    (hto : MapsTo (order.map Placed.map) s.request maps₁) :
    ∃ mapped, maps₁ = mapped.map Placed.map ∧ Layout segments (n + 1) n dest mapped := by
  have hsort : SortsTo (fun a b => a.hi ≤ b.hi)
      ((order ++ [Placed.fresh n s]).map Placed.map) maps₁ := by
    rw [List.map_append]
    exact hto
  obtain ⟨mapped, rfl, hmapped⟩ := hsort.exists_of_map
  exact ⟨mapped, rfl, h.sorts hs hmapped⟩

/-- Every map that may answer for an address answers for it in one of the outcomes. -/
theorem Layout.map_aim (h : Layout segments n n dest order) {s : DecryptedSegment}
    (hs : segments[n]? = some s) {a : Word} {j : Nat} {t : DecryptedSegment}
    (hans : MayAnswer segments (n + 1) j t a) :
    ∃ mapped, MapsTo (order.map Placed.map) s.request (mapped.map Placed.map) ∧
      Layout segments (n + 1) n dest mapped ∧ owner mapped a = some j := by
  have hstable := sortsTo_insertionSort (r := Placed.EndsBy) (order ++ [Placed.fresh n s])
  obtain ⟨e, he, rfl⟩ := (h.sorts hs hstable).all j hans.lt
  obtain ⟨front, back, hsort, hfront⟩ :=
    exists_sortsTo_front (r := Placed.EndsBy) (hstable.perm.mem_iff.mp he)
  have hlayout := h.sorts hs hsort
  have hholds := hlayout.holds e (by simp)
  obtain rfl : e.segment = t := Option.some.inj (hholds.segment.symm.trans hans.segment)
  refine ⟨front ++ e :: back, ?_, hlayout, owner_eq_some.mpr
    ⟨front.length, e, by simp, rfl, hans.covers, fun q hq e' he' hcov => ?_⟩⟩
  · have hto := SortsTo.map (r := fun a b : MemoryMap => a.hi ≤ b.hi) hsort
    rw [List.map_append] at hto
    exact hto
  · -- a map in front of it ends before it, and so covers the address in vain
    rw [List.getElem?_append_left hq] at he'
    have hmem' := List.mem_of_getElem? he'
    have hin : e' ∈ front ++ e :: back := List.mem_append_left _ hmem'
    have hholds' := hlayout.holds e' hin
    refine hfront e' hmem' ?_
    have hle := hans.first e'.index (hlayout.lt e' hin) e'.segment hholds'.segment hcov
    rw [← hholds.end_, ← hholds'.end_] at hle
    exact hle

/-! ### Copying a segment -/

/-- The address of a byte of `s`, as an offset into the buffer of a map that covers `s`. -/
theorem DecryptedSegment.Covers.address_iff {s t : DecryptedSegment} (h : t.Covers s.vaddr)
    (hload : s.IsLoad) {k o : Nat} (hk : k < s.phdr.pMemsz.toNat) (ho : o < t.mapSize) :
    s.vaddr + BitVec.ofNat 32 k = t.vaddr + BitVec.ofNat 32 o ↔
      o = (s.vaddr - t.vaddr).toNat + k := by
  have hadd := hload.toNat_add hk
  obtain ⟨hlo, hhi⟩ := h
  unfold DecryptedSegment.mapSize at ho
  constructor
  · intro heq
    rw [heq] at hadd
    bv_omega
  · intro heq
    apply BitVec.eq_of_toNat_eq
    rw [hadd]
    bv_omega

/-- The source of a copy: the bytes of the file. -/
theorem DecryptedSegment.IsLoad.src {s : DecryptedSegment} (h : s.IsLoad) :
    bufRead s.data 0 (s.segmentLength % 2 ^ 32) = .ok (slice s.data 0 s.segmentLength) := by
  have hlt : s.segmentLength < 2 ^ 32 := by
    rw [h.length]
    exact s.phdr.pFilesz.isLt
  have hbuffer := h.buffer
  rw [Nat.mod_eq_of_lt hlt, bufRead, if_pos (.inr (by omega))]

/-- A map that the segment is not copied to keeps what it holds. -/
theorem Placed.Holds.other {e : Placed} (h : e.Holds segments dest) {d : Option Nat}
    (hnone : dest n = none) (hne : d ≠ some e.index) :
    e.Holds segments (Function.update dest n d) := by
  have hiff : ∀ i, Function.update dest n d i = some e.index ↔ dest i = some e.index := by
    intro i
    by_cases hi : i = n
    · subst hi
      rw [Function.update_self, hnone]
      exact ⟨fun heq => absurd heq hne, nofun⟩
    · rw [Function.update_of_ne hi]
  refine ⟨h.segment, h.start, h.end_, fun o ho i s k hcopies => ?_, fun o ho hno => ?_⟩
  · exact h.copied o ho i s k
      ⟨(hiff i).mp hcopies.target, hcopies.segment, hcopies.byte, hcopies.address⟩
  · refine h.zero o ho fun i s k hcopies => hno i s k ?_
    exact ⟨(hiff i).mpr hcopies.target, hcopies.segment, hcopies.byte, hcopies.address⟩

/-- The map that the segment is copied to, after the copy. -/
theorem Placed.Holds.store (himage : IsImage segments) {e : Placed} (h : e.Holds segments dest)
    {s : DecryptedSegment} (hs : segments[n]? = some s) (hcov : e.segment.Covers s.vaddr)
    (hnone : dest n = none) {off : Nat} (hoff : off = (s.vaddr - e.segment.vaddr).toNat)
    (hfits : e.map.Fits off (slice s.data 0 s.segmentLength).length) :
    ({ e with map := e.map.store off (slice s.data 0 s.segmentLength) } : Placed).Holds
      segments (Function.update dest n (some e.index)) := by
  have hload := himage.load s (List.mem_of_getElem? hs)
  have hget := MemoryMap.store_slice_getElem? hload.buffer hfits
  have hiff : ∀ {o k}, o < e.map.data.length → k < s.segmentLength →
      (s.vaddr + BitVec.ofNat 32 k = e.segment.vaddr + BitVec.ofNat 32 o ↔ o = off + k) := by
    intro o k ho hk
    rw [h.length] at ho
    rw [hcov.address_iff hload (hload.lt_memsz hk) ho, hoff]
  refine ⟨h.segment, by simpa using h.start, by simpa using h.end_, ?_, ?_⟩
  · intro o ho i s' k hcopies
    rw [MemoryMap.store_data_length] at ho
    rw [hget]
    by_cases hi : i = n
    · subst hi
      obtain rfl : s = s' := Option.some.inj (hs.symm.trans hcopies.segment)
      have hok := (hiff ho hcopies.byte).mp hcopies.address
      have hbyte := hcopies.byte
      rw [if_pos (by omega)]
      congr 1
      omega
    · -- a byte of an earlier segment: the new one has none at its address
      have htarget := hcopies.target
      rw [Function.update_of_ne hi] at htarget
      rw [if_neg, h.copied o ho i s' k
        ⟨htarget, hcopies.segment, hcopies.byte, hcopies.address⟩]
      intro hin
      have hload' := himage.load s' (List.mem_of_getElem? hcopies.segment)
      have haddr := (hiff ho (k := o - off) (by omega)).mpr (by omega)
      exact hi (himage.byte_unique hs hcopies.segment (hload.lt_memsz (by omega))
        (hload'.lt_memsz hcopies.byte) (haddr.trans hcopies.address.symm)).1.symm
  · intro o ho hno
    rw [MemoryMap.store_data_length] at ho
    have hout : ¬ (off ≤ o ∧ o < off + s.segmentLength) := by
      intro hin
      exact hno n s (o - off) ⟨Function.update_self .., hs, by omega,
        (hiff ho (by omega)).mpr (by omega)⟩
    rw [hget, if_neg hout]
    refine h.zero o ho fun i s' k hcopies => hno i s' k ?_
    have hi : i ≠ n := by
      rintro rfl
      have htarget := hcopies.target
      rw [hnone] at htarget
      cases htarget
    exact ⟨by rw [Function.update_of_ne hi]; exact hcopies.target, hcopies.segment,
      hcopies.byte, hcopies.address⟩

/-- What the lookups see of a map. -/
def Placed.key (e : Placed) : Nat × DecryptedSegment := (e.index, e.segment)

theorem owner_eq_of_keys {order' : List Placed} (h : order'.map Placed.key = order.map Placed.key)
    (a : Word) : owner order' a = owner order a := by
  have hkey : ∀ l : List Placed, owner l a =
      ((l.map Placed.key).find? fun p => decide (p.2.Covers a)).map Prod.fst := by
    intro l
    rw [List.find?_map, Option.map_map]
    rfl
  rw [hkey, hkey, h]

/-- The list with the contents of one map replaced. -/
theorem Layout.set (h : Layout segments (n + 1) n dest order) {s : DecryptedSegment}
    (hs : segments[n]? = some s) {q : Nat} {e : Placed} {it : MemoryMap}
    (he : order[q]? = some e) (howner : owner order s.vaddr = some e.index)
    (hnew : ({ e with map := it } : Placed).Holds segments
      (Function.update dest n (some e.index))) :
    Layout segments (n + 1) (n + 1) (Function.update dest n (some e.index))
        (order.set q { e with map := it }) ∧
      ∀ a, owner (order.set q { e with map := it }) a = owner order a := by
  obtain ⟨hq, hqe⟩ := List.getElem?_eq_some_iff.mp he
  have hkeys : (order.set q { e with map := it }).map Placed.key = order.map Placed.key := by
    have hkey : Placed.key { e with map := it } = order[q].key := by rw [hqe]; rfl
    rw [List.map_set, hkey, ← List.map_set, List.set_getElem_self]
  have hmem : ∀ {a b : List Placed}, a.map Placed.key = b.map Placed.key → ∀ e' ∈ a, ∃ e'' ∈ b,
      e''.index = e'.index := by
    intro a b hab e' he'
    have hkey : e'.key ∈ b.map Placed.key := hab ▸ List.mem_map_of_mem he'
    obtain ⟨e'', he'', hk⟩ := List.mem_map.mp hkey
    exact ⟨e'', he'', congrArg Prod.fst hk⟩
  refine ⟨⟨fun e' he' => ?_, fun e' he' => ?_, fun j hj => ?_, ?_, ?_, fun i hi => ?_,
    fun i hi => ?_⟩, owner_eq_of_keys hkeys⟩
  · obtain ⟨r, hr⟩ := List.mem_iff_getElem?.mp he'
    rw [List.getElem?_set] at hr
    by_cases hqr : q = r
    · rw [if_pos hqr, if_pos hq] at hr
      cases hr
      exact hnew
    · rw [if_neg hqr] at hr
      obtain ⟨hr', rfl⟩ := List.getElem?_eq_some_iff.mp hr
      have hother := h.holds _ (List.getElem_mem hr')
      refine hother.other (h.pending n (Nat.le_refl n)) fun hsame => ?_
      -- no two maps of the list are of one segment
      have hdistinct := List.pairwise_iff_getElem.mp h.distinct
      rw [Option.some.injEq, ← hqe] at hsame
      rcases Nat.lt_or_gt_of_ne hqr with hlt | hgt
      · exact hdistinct q r hq hr' hlt hsame
      · exact hdistinct r q hr' hq hgt hsame.symm
  · obtain ⟨e'', he'', hindex⟩ := hmem hkeys e' he'
    exact hindex ▸ h.lt e'' he''
  · obtain ⟨e', he', rfl⟩ := h.all j hj
    exact hmem hkeys.symm e' he'
  · have hdistinct : (order.map Placed.key).Pairwise fun a b => a.1 ≠ b.1 :=
      List.pairwise_map.mpr h.distinct
    rw [← hkeys, List.pairwise_map] at hdistinct
    exact hdistinct
  · have hsorted : (order.map Placed.key).Pairwise fun a b => a.2.pageEnd ≤ b.2.pageEnd :=
      List.pairwise_map.mpr h.sorted
    rw [← hkeys, List.pairwise_map] at hsorted
    exact hsorted
  · rcases Nat.lt_succ_iff_lt_or_eq.mp hi with hlt | rfl
    · rw [Function.update_of_ne (Nat.ne_of_lt hlt)]
      exact h.copied i hlt
    · rw [Function.update_self, ← howner]
      exact h.destination hs
  · rw [Function.update_of_ne (Nat.ne_of_gt hi)]
    exact h.pending i (Nat.le_of_succ_le hi)

/-- Copying the segment that was just mapped. It is defined exactly if the segment fits the map
of the owner of its address, which is then where it was copied to. -/
theorem Layout.copy (himage : IsImage segments) (h : Layout segments (n + 1) n dest order)
    {s : DecryptedSegment} (hs : segments[n]? = some s) :
    ((∀ j t, owner order s.vaddr = some j → segments[j]? = some t → s.FitsIn t) →
      ∃ maps', copySegment (order.map Placed.map) s = .ok maps') ∧
    ∀ maps', copySegment (order.map Placed.map) s = .ok maps' →
      (∀ j t, owner order s.vaddr = some j → segments[j]? = some t → s.FitsIn t) ∧
      ∃ order', maps' = order'.map Placed.map ∧
        Layout segments (n + 1) (n + 1) (Function.update dest n (owner order s.vaddr)) order' ∧
        ∀ a, owner order' a = owner order a := by
  have hload := himage.load s (List.mem_of_getElem? hs)
  have hlen : (slice s.data 0 s.segmentLength).length = s.segmentLength :=
    slice_length (by have := hload.buffer; omega)
  have hnone := h.pending n (Nat.le_refl n)
  have hdest := h.destination hs
  cases hp : getPointerUnchecked (order.map Placed.map) s.vaddr with
  | none =>
    have howner := h.pointer_none hp
    have hcopy : copySegment (order.map Placed.map) s = .ok (order.map Placed.map) := by
      rw [copySegment_eq_memcpy hload.src, memcpy, getPointer, ← DecryptedSegment.vaddr, hp]
    rw [howner] at hdest ⊢
    refine ⟨fun _ => ⟨_, hcopy⟩, fun maps' hok => ⟨nofun, order, ?_, ?_, fun _ => rfl⟩⟩
    · cases hcopy.symm.trans hok
      rfl
    · rw [← hnone, Function.update_eq_self]
      rw [← hnone] at hdest
      refine ⟨h.holds, h.lt, h.all, h.distinct, h.sorted, fun i hi => ?_, fun i hi => ?_⟩
      · rcases Nat.lt_succ_iff_lt_or_eq.mp hi with hlt | rfl
        · exact h.copied i hlt
        · exact hdest
      · exact h.pending i (Nat.le_of_succ_le hi)
  | some p =>
    obtain ⟨e, he, hoff, hcov, howner⟩ := h.pointer hp
    have hholds := h.holds e (List.mem_of_getElem? he)
    have hcopy : copySegment (order.map Placed.map) s =
        writeBytes (order.map Placed.map) p (slice s.data 0 s.segmentLength) := by
      rw [copySegment_eq_memcpy hload.src, memcpy, getPointer, ← DecryptedSegment.vaddr, hp]
    have hit : (order.map Placed.map)[p.map]? = some e.map := by
      rw [List.getElem?_map, he]
      rfl
    have hfits : e.map.Fits p.offset (slice s.data 0 s.segmentLength).length ↔
        s.FitsIn e.segment := by
      rw [MemoryMap.Fits, hlen, hoff, hholds.length, DecryptedSegment.FitsIn]
    rw [howner, hcopy]
    refine ⟨fun hfit => ?_, fun maps' hok => ?_⟩
    · exact ⟨_, writeBytes_ok.mpr ⟨e.map, hit, hfits.mpr (hfit _ _ rfl hholds.segment), rfl⟩⟩
    · obtain ⟨it, hit', hfit, rfl⟩ := writeBytes_ok.mp hok
      obtain rfl : e.map = it := Option.some.inj (hit.symm.trans hit')
      refine ⟨fun j t hj ht => ?_, order.set p.map
        { e with map := e.map.store p.offset (slice s.data 0 s.segmentLength) }, ?_, ?_⟩
      · cases hj
        cases hholds.segment.symm.trans ht
        exact hfits.mp hfit
      · rw [List.map_set]
      · exact h.set hs he howner (hholds.store himage hs hcov hnone hoff hfit)

/-! ### The loop -/

/-- The map list between two rounds: the last copy was made under its order. -/
structure Outcome (segments : List DecryptedSegment) (n : Nat) (dest : Nat → Option Nat)
    (order : List Placed) : Prop extends Layout segments n n dest order where
  current : ∀ i s, n = i + 1 → segments[i]? = some s → dest i = owner order s.vaddr

theorem Outcome.nil (segments : List DecryptedSegment) :
    Outcome segments 0 (fun _ => none) [] :=
  ⟨.nil segments, fun _ _ h => absurd h (Nat.zero_ne_add_one _)⟩

/-- The end of a round. -/
theorem Layout.round (himage : IsImage segments) {mapped : List Placed}
    (h : Layout segments (n + 1) n dest mapped) {s : DecryptedSegment}
    (hs : segments[n]? = some s) {maps' : List MemoryMap}
    (hcopy : copySegment (mapped.map Placed.map) s = .ok maps') :
    ∃ order', maps' = order'.map Placed.map ∧
      Outcome segments (n + 1) (Function.update dest n (owner mapped s.vaddr)) order' ∧
      ∀ a, owner order' a = owner mapped a := by
  obtain ⟨_, order', rfl, hlayout, howner⟩ := (h.copy himage hs).2 maps' hcopy
  refine ⟨order', rfl, ⟨hlayout, fun i s' hi hs' => ?_⟩, howner⟩
  obtain rfl : n = i := Nat.succ.inj hi
  cases hs.symm.trans hs'
  rw [Function.update_self, howner]

/-- Every run of the loop leaves an outcome. -/
theorem run_outcome (himage : IsImage segments) {before after : List DecryptedSegment}
    (hsplit : segments = before ++ after) {maps : List MemoryMap}
    (hrun : Steps MapsSegment [] before maps) :
    ∃ dest order, maps = order.map Placed.map ∧ Outcome segments before.length dest order := by
  induction hrun generalizing after with
  | nil => exact ⟨_, [], rfl, .nil segments⟩
  | @snoc _ maps' before s _ hround ih =>
    rw [List.append_assoc] at hsplit
    obtain ⟨dest, order, rfl, houtcome⟩ := ih hsplit
    have hs : segments[before.length]? = some s := by
      rw [hsplit]
      simp
    have hload := himage.load s (List.mem_of_getElem? hs)
    obtain ⟨maps₁, hto, hcopy⟩ := (mapsSegment_of_mapped hload.isMapped).mp hround
    obtain ⟨mapped, rfl, hlayout⟩ := houtcome.map hs hto
    obtain ⟨order', rfl, hnext, _⟩ := hlayout.round himage hs hcopy
    have hlen : (before ++ [s]).length = before.length + 1 := by simp
    exact ⟨_, order', rfl, hlen ▸ hnext⟩

/-- In a run the segment fits a map that may answer for its address. -/
theorem run_fits (himage : IsImage segments) {before after : List DecryptedSegment}
    {s : DecryptedSegment} (hsplit : segments = before ++ s :: after) {maps : List MemoryMap}
    (hrun : Steps MapsSegment [] segments maps) {j : Nat} {t : DecryptedSegment}
    (hans : MayAnswer segments (before.length + 1) j t s.vaddr) :
    ∃ j' t', MayAnswer segments (before.length + 1) j' t' s.vaddr ∧ s.FitsIn t' := by
  have hs : segments[before.length]? = some s := by
    rw [hsplit]
    simp
  rw [hsplit] at hrun
  obtain ⟨maps₀, maps', hfirst, hround, _⟩ := hrun.at
  have hload := himage.load s (List.mem_of_getElem? hs)
  obtain ⟨dest, order, rfl, houtcome⟩ := run_outcome himage hsplit hfirst
  obtain ⟨maps₁, hto, hcopy⟩ := (mapsSegment_of_mapped hload.isMapped).mp hround
  obtain ⟨mapped, rfl, hlayout⟩ := houtcome.map hs hto
  cases howner : owner mapped s.vaddr with
  | none => exact absurd hans (hlayout.not_mayAnswer howner)
  | some j' =>
    obtain ⟨t', hans'⟩ := hlayout.owner_mayAnswer howner
    exact ⟨j', t', hans', ((hlayout.copy himage hs).2 maps' hcopy).1 j' t' howner hans'.segment⟩

end Layout

end Betavita.Loader
