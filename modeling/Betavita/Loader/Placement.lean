import Betavita.Loader.ImageLayout

/-!
# Where the bytes of an image end up

The image is in place if every address of a segment designates its byte, whatever
`std::sort` makes of maps with equal ends. `PagesAgree` says when it is: a condition on the
segments that may answer for the addresses, with no run of the loop in it.
-/

namespace Betavita.Loader

open Memory Transition

/-- The image is in place, whatever the sort makes of equal ends: no copy leaves the buffer it
goes to, and in the end every address of a segment designates its byte, or zero behind the
bytes of the file. -/
structure PlacesImage (segments : List DecryptedSegment) : Prop where
  copies : ∀ before s after maps maps₁, segments = before ++ s :: after →
    Steps MapsSegment [] before maps → MapsTo maps s.request maps₁ →
    ∃ maps', copySegment maps₁ s = .ok maps'
  bytes : ∀ maps, Steps MapsSegment [] segments maps →
    ∀ s ∈ segments, ∀ k < s.phdr.pMemsz.toNat,
      loadByte maps (s.phdr.pVaddr + BitVec.ofNat 32 k) =
        if k < s.segmentLength then s.data[k]? else some 0

/-- Segment `i` fits every map that may answer for its address when it is copied. -/
def FitsAt (segments : List DecryptedSegment) (i : Nat) : Prop :=
  ∀ s, segments[i]? = some s → ∀ j t, MayAnswer segments (i + 1) j t s.vaddr → s.FitsIn t

/-- Shared pages do no harm: every copy fits; what may answer in the end for an address of a
segment has a buffer; and where a byte of the file is not zero, it is the map the segment was
copied to. A segment that is not the last one is copied under an order that later rounds may
undo, so that no other map may answer for its address then. -/
structure PagesAgree (segments : List DecryptedSegment) : Prop where
  fits : ∀ i, FitsAt segments i
  backed : ∀ s ∈ segments, ∀ k < s.phdr.pMemsz.toNat, ∀ j t,
    MayAnswer segments segments.length j t (s.vaddr + BitVec.ofNat 32 k) → t.mapSize ≠ 0
  found : ∀ i s, segments[i]? = some s → ∀ k < s.segmentLength, s.data[k]? ≠ some 0 → ∀ j t,
    MayAnswer segments segments.length j t (s.vaddr + BitVec.ofNat 32 k) →
    MayAnswer segments (i + 1) j t s.vaddr ∧
      (i + 1 < segments.length → ∀ j' t', MayAnswer segments (i + 1) j' t' s.vaddr → j' = j)

section Runs

variable {segments : List DecryptedSegment} {n : Nat} {dest : Nat → Option Nat}
  {order : List Placed}

/-! ## Runs with a given order -/

/-- In round `i` the map of segment `(aim i).2` stood so that it answers for `(aim i).1`. -/
structure Aimed (segments : List DecryptedSegment) (aim : Nat → Word × Nat) (n : Nat)
    (dest : Nat → Option Nat) (order : List Placed) : Prop where
  target : ∀ i < n, ∀ s t, segments[i]? = some s → (aim i).1 = s.vaddr →
    MayAnswer segments (i + 1) (aim i).2 t (aim i).1 → dest i = some (aim i).2
  current : ∀ i t, n = i + 1 → MayAnswer segments n (aim i).2 t (aim i).1 →
    owner order (aim i).1 = some (aim i).2

/-- If no copy leaves its buffer, there is a run with every order one may aim at. -/
theorem exists_aimed (himage : IsImage segments)
    (hcopies : ∀ before s after maps maps₁, segments = before ++ s :: after →
      Steps MapsSegment [] before maps → MapsTo maps s.request maps₁ →
      ∃ maps', copySegment maps₁ s = .ok maps') (aim : Nat → Word × Nat)
    (hn : n ≤ segments.length) :
    ∃ dest order, Steps MapsSegment [] (segments.take n) (order.map Placed.map) ∧
      Outcome segments n dest order ∧ Aimed segments aim n dest order := by
  induction n with
  | zero => exact ⟨_, [], .nil, .nil segments, ⟨nofun, nofun⟩⟩
  | succ n ih =>
    obtain ⟨dest, order, hrun, houtcome, haimed⟩ := ih (Nat.le_of_succ_le hn)
    have hs : segments[n]? = some segments[n] := List.getElem?_eq_getElem hn
    have hload := himage.load _ (List.getElem_mem hn)
    have hmapped : ∃ mapped : List Placed,
        MapsTo (order.map Placed.map) segments[n].request (mapped.map Placed.map) ∧
        Layout segments (n + 1) n dest mapped ∧
        ∀ t, MayAnswer segments (n + 1) (aim n).2 t (aim n).1 →
          owner mapped (aim n).1 = some (aim n).2 := by
      by_cases hmay : ∃ t, MayAnswer segments (n + 1) (aim n).2 t (aim n).1
      · obtain ⟨t, hans⟩ := hmay
        obtain ⟨mapped, hto, hlayout, howner⟩ := houtcome.map_aim hs hans
        exact ⟨mapped, hto, hlayout, fun _ _ => howner⟩
      · have hto := mapMemory_mapsTo (order.map Placed.map) segments[n].request
        obtain ⟨mapped, heq, hlayout⟩ := houtcome.map hs hto
        rw [heq] at hto
        exact ⟨mapped, hto, hlayout, fun t hans => absurd ⟨t, hans⟩ hmay⟩
    obtain ⟨mapped, hto, hlayout, haim⟩ := hmapped
    obtain ⟨maps', hcopy⟩ := hcopies (segments.take n) segments[n] (segments.drop (n + 1)) _ _
      (by rw [List.getElem_cons_drop, List.take_append_drop]) hrun hto
    obtain ⟨order', rfl, hnext, howner⟩ := hlayout.round himage hs hcopy
    have hround := (mapsSegment_of_mapped hload.isMapped).mpr ⟨_, hto, hcopy⟩
    refine ⟨_, order', ?_, hnext, ⟨fun i hi s t hi' heq hans => ?_, fun i t hi hans => ?_⟩⟩
    · rw [← List.take_append_getElem hn]
      exact .snoc hrun hround
    · rcases Nat.lt_succ_iff_lt_or_eq.mp hi with hlt | rfl
      · rw [Function.update_of_ne (Nat.ne_of_lt hlt)]
        exact haimed.target i hlt s t hi' heq hans
      · cases hs.symm.trans hi'
        rw [Function.update_self, ← heq]
        exact haim t hans
    · obtain rfl : n = i := Nat.succ.inj hi
      rw [howner]
      exact haim t hans

/-! ## What the image reads as -/

/-- What a byte of the image reads as in the end. -/
theorem Layout.loadByte (himage : IsImage segments)
    (h : Layout segments segments.length n dest order) {i k : Nat} {s : DecryptedSegment}
    (hs : segments[i]? = some s) (hk : k < s.phdr.pMemsz.toNat) :
    ∃ j t, owner order (s.vaddr + BitVec.ofNat 32 k) = some j ∧
      MayAnswer segments segments.length j t (s.vaddr + BitVec.ofNat 32 k) ∧
      let byte := Memory.loadByte (order.map Placed.map) (s.vaddr + BitVec.ofNat 32 k)
      let copied := k < s.segmentLength ∧ dest i = some j
      (t.mapSize = 0 → byte = none) ∧ (t.mapSize ≠ 0 → copied → byte = s.data[k]?) ∧
        (t.mapSize ≠ 0 → ¬ copied → byte = some 0) := by
  have hload := himage.load s (List.mem_of_getElem? hs)
  have hcovers := hload.covers hk
  cases hp : getPointerUnchecked (order.map Placed.map) (s.vaddr + BitVec.ofNat 32 k) with
  | none =>
    -- the segment's own map covers the address
    obtain ⟨e, he, rfl⟩ := h.all i (List.getElem?_eq_some_iff.mp hs).1
    cases (h.holds e he).segment.symm.trans hs
    exact absurd hcovers (owner_eq_none.mp (h.pointer_none hp) e he)
  | some p =>
    obtain ⟨e, he, hoff, hcov, howner⟩ := h.pointer hp
    have hholds := h.holds e (List.mem_of_getElem? he)
    have hbyte : Memory.loadByte (order.map Placed.map) (s.vaddr + BitVec.ofNat 32 k) =
        e.map.data[p.offset]? := by
      simp [Memory.loadByte, hp, byteAt, he]
    have hin : e.segment.mapSize ≠ 0 → p.offset < e.map.data.length := by
      intro hne
      obtain ⟨hlo, hhi⟩ := hcov
      rw [hholds.length, hoff]
      unfold DecryptedSegment.mapSize at hne ⊢
      bv_omega
    have haddr : e.segment.vaddr + BitVec.ofNat 32 p.offset = s.vaddr + BitVec.ofNat 32 k := by
      rw [hoff, BitVec.ofNat_toNat, BitVec.setWidth_eq]
      bv_omega
    have hans : MayAnswer segments segments.length e.index e.segment
        (s.vaddr + BitVec.ofNat 32 k) := by
      obtain ⟨t, hans⟩ := h.owner_mayAnswer howner
      obtain rfl : e.segment = t := Option.some.inj (hholds.segment.symm.trans hans.segment)
      exact hans
    refine ⟨e.index, e.segment, howner, hans, fun hzero => ?_, fun hne hcopied => ?_,
      fun hne hnot => ?_⟩
    · rw [hbyte, List.getElem?_eq_none]
      rw [hholds.length, hzero]
      exact Nat.zero_le _
    · rw [hbyte]
      exact hholds.copied p.offset (hin hne) i s k ⟨hcopied.2, hs, hcopied.1, haddr.symm⟩
    · rw [hbyte]
      refine hholds.zero p.offset (hin hne) fun i' s' k' hcopies => hnot ?_
      -- whatever was copied to the byte comes from the same byte of the same segment
      have hload' := himage.load s' (List.mem_of_getElem? hcopies.segment)
      obtain ⟨rfl, rfl⟩ := himage.byte_unique hcopies.segment hs (hload'.lt_memsz hcopies.byte) hk
        (hcopies.address.trans haddr)
      obtain rfl : s' = s := Option.some.inj (hcopies.segment.symm.trans hs)
      exact ⟨hcopies.byte, hcopies.target⟩

section Places

variable {i j k : Nat} {s t : DecryptedSegment}

/-- What owns a byte of an image in place has a buffer. -/
theorem PlacesImage.mapSize_ne_zero (himage : IsImage segments) (h : PlacesImage segments)
    (hrun : Steps MapsSegment [] segments (order.map Placed.map))
    (hlayout : Layout segments segments.length n dest order) (hs : segments[i]? = some s)
    (hk : k < s.phdr.pMemsz.toNat)
    (howner : owner order (s.vaddr + BitVec.ofNat 32 k) = some j) (ht : segments[j]? = some t) :
    t.mapSize ≠ 0 := by
  intro hzero
  have hmem := List.mem_of_getElem? hs
  have hbyte := h.bytes _ hrun s hmem k hk
  obtain ⟨j', t', howner', hans, hnone, _⟩ := hlayout.loadByte himage hs hk
  cases howner.symm.trans howner'
  cases ht.symm.trans hans.segment
  rw [← DecryptedSegment.vaddr, hnone hzero] at hbyte
  split at hbyte
  · have hbuffer := (himage.load s hmem).buffer
    rw [eq_comm, List.getElem?_eq_none_iff] at hbyte
    omega
  · cases hbyte

/-- What owns a byte of the file that is not zero is what the segment was copied to. -/
theorem PlacesImage.copied_to_owner (himage : IsImage segments) (h : PlacesImage segments)
    (hrun : Steps MapsSegment [] segments (order.map Placed.map))
    (hlayout : Layout segments segments.length n dest order) (hs : segments[i]? = some s)
    (hk : k < s.segmentLength) (hne : s.data[k]? ≠ some 0)
    (howner : owner order (s.vaddr + BitVec.ofNat 32 k) = some j) : dest i = some j := by
  have hmem := List.mem_of_getElem? hs
  have hmemsz := (himage.load s hmem).lt_memsz hk
  have hbyte := h.bytes _ hrun s hmem k hmemsz
  obtain ⟨j', t, howner', hans, _, _, hnot⟩ := hlayout.loadByte himage hs hmemsz
  cases howner.symm.trans howner'
  have hsize := h.mapSize_ne_zero himage hrun hlayout hs hmemsz howner hans.segment
  rw [if_pos hk] at hbyte
  -- had it been copied elsewhere, it would read as zero
  by_contra hcopied
  exact hne (hbyte.symm.trans (hnot hsize fun hc => hcopied hc.2))

/-- A full run that is aimed at the address in its last round. -/
theorem PlacesImage.exists_run (himage : IsImage segments) (h : PlacesImage segments)
    (aim : Nat → Word × Nat) {a : Word} (haim : ∀ r, segments.length = r + 1 → aim r = (a, j))
    (hans : MayAnswer segments segments.length j t a) :
    ∃ dest order, Steps MapsSegment [] segments (order.map Placed.map) ∧
      Outcome segments segments.length dest order ∧
      Aimed segments aim segments.length dest order ∧ owner order a = some j := by
  obtain ⟨dest, order, hrun, houtcome, haimed⟩ :=
    exists_aimed himage h.copies aim (Nat.le_refl segments.length)
  rw [List.take_length] at hrun
  have hpos : 0 < segments.length := Nat.zero_lt_of_lt hans.lt
  obtain ⟨r, hr⟩ := Nat.exists_eq_succ_of_ne_zero (Nat.ne_of_gt hpos)
  have hcurrent := haimed.current r t hr
  rw [haim r hr] at hcurrent
  exact ⟨dest, order, hrun, houtcome, haimed, hcurrent hans⟩

/-- An image in place has its pages in agreement. -/
theorem PlacesImage.agree (himage : IsImage segments) (h : PlacesImage segments) :
    PagesAgree segments := by
  refine ⟨fun i s hs j t hans => ?_, fun s hs k hk j t hans => ?_,
    fun i s hs k hk hne j t hans => ⟨?_, fun hlast j' t' hans' => ?_⟩⟩
  · obtain ⟨hi, rfl⟩ := List.getElem?_eq_some_iff.mp hs
    obtain ⟨dest, order, hrun, houtcome, _⟩ :=
      exists_aimed himage h.copies (fun _ => (0, 0)) (Nat.le_of_lt hi)
    obtain ⟨mapped, hto, hlayout, howner⟩ := houtcome.map_aim hs hans
    obtain ⟨maps', hcopy⟩ := h.copies (segments.take i) segments[i] (segments.drop (i + 1)) _ _
      (by rw [List.getElem_cons_drop, List.take_append_drop]) hrun hto
    exact ((hlayout.copy himage hs).2 maps' hcopy).1 j t howner hans.segment
  · obtain ⟨i, hi, rfl⟩ := List.getElem_of_mem hs
    obtain ⟨dest, order, hrun, houtcome, _, howner⟩ :=
      h.exists_run himage (fun _ => (_, j)) (fun _ _ => rfl) hans
    exact h.mapSize_ne_zero himage hrun houtcome.toLayout (List.getElem?_eq_getElem hi) hk howner
      hans.segment
  · obtain ⟨dest, order, hrun, houtcome, _, howner⟩ :=
      h.exists_run himage (fun _ => (_, j)) (fun _ _ => rfl) hans
    have hdest := houtcome.copied i (List.getElem?_eq_some_iff.mp hs).1
    rw [h.copied_to_owner himage hrun houtcome.toLayout hs hk hne howner] at hdest
    obtain ⟨t', hans'⟩ := hdest s hs
    obtain rfl : t = t' := Option.some.inj (hans.segment.symm.trans hans'.segment)
    exact hans'
  · -- a run that copies the segment to the map of `j'`, and has that of `j` in front in the end
    obtain ⟨dest, order, hrun, houtcome, haimed, howner⟩ :=
      h.exists_run himage (fun r => if r = i then (s.vaddr, j') else (_, j))
        (fun r hr => if_neg (by omega)) hans
    have htarget := haimed.target i (Nat.lt_of_succ_lt hlast) s t' hs
    simp only [if_true] at htarget
    have hcopied := h.copied_to_owner himage hrun houtcome.toLayout hs hk hne howner
    rw [htarget trivial hans'] at hcopied
    exact Option.some.inj hcopied

/-- The last copy goes by the order that lookups see: what may answer for the address of the
segment then, and owns a byte of it, owns its address. -/
theorem Layout.owner_start (h : Layout segments segments.length n dest order)
    (hload : s.IsLoad) (hk : k < s.phdr.pMemsz.toNat)
    (howner : owner order (s.vaddr + BitVec.ofNat 32 k) = some j)
    (hans : MayAnswer segments segments.length j t s.vaddr) : owner order s.vaddr = some j := by
  obtain ⟨q, e, he, rfl, hcov, hfirst⟩ := owner_eq_some.mp howner
  have hholds := h.holds e (List.mem_of_getElem? he)
  obtain rfl : e.segment = t := Option.some.inj (hholds.segment.symm.trans hans.segment)
  refine owner_eq_some.mpr ⟨q, e, he, rfl, hans.covers, fun q' hq' e' he' hc => ?_⟩
  -- a map in front that covers the address does not end before, so it covers the byte
  have hmem' := List.mem_of_getElem? he'
  have hend := hans.first e'.index (h.lt e' hmem') e'.segment (h.holds e' hmem').segment hc
  refine hfirst q' hq' e' he' ⟨?_, BitVec.le_trans hcov.2 hend⟩
  have hstart : e'.segment.vaddr.toNat ≤ s.vaddr.toNat := hc.1
  show e'.segment.vaddr.toNat ≤ (s.vaddr + BitVec.ofNat 32 k).toNat
  rw [hload.toNat_add hk]
  omega

/-- With the pages in agreement every byte reads as it should. -/
theorem PagesAgree.loadByte (himage : IsImage segments) (hagree : PagesAgree segments)
    (h : Outcome segments segments.length dest order) (hs : segments[i]? = some s)
    (hk : k < s.phdr.pMemsz.toNat) :
    Memory.loadByte (order.map Placed.map) (s.vaddr + BitVec.ofNat 32 k) =
      if k < s.segmentLength then s.data[k]? else some 0 := by
  have hmem := List.mem_of_getElem? hs
  obtain ⟨j, t, howner, hans, _, hcopied, hnot⟩ := h.toLayout.loadByte himage hs hk
  have hsize := hagree.backed s hmem k hk j t hans
  by_cases hfile : k < s.segmentLength
  · rw [if_pos hfile]
    by_cases hzero : s.data[k]? = some 0
    · -- a zero of the file reads as zero wherever it was copied to
      by_cases htarget : dest i = some j
      · exact hcopied hsize ⟨hfile, htarget⟩
      · rw [hzero]
        exact hnot hsize fun hc => htarget hc.2
    · obtain ⟨hthen, honly⟩ := hagree.found i s hs k hfile hzero j t hans
      have hi := (List.getElem?_eq_some_iff.mp hs).1
      refine hcopied hsize ⟨hfile, ?_⟩
      rcases Nat.lt_or_eq_of_le (Nat.succ_le_of_lt hi) with hlt | hlast
      · have hdest := h.copied i hi
        cases htarget : dest i with
        | none =>
          rw [htarget] at hdest
          exact absurd hthen (hdest s hs j t)
        | some j' =>
          rw [htarget] at hdest
          obtain ⟨t', hans'⟩ := hdest s hs
          rw [honly hlt j' t' hans']
      · rw [h.current i s hlast.symm hs]
        rw [← Nat.succ_eq_add_one, hlast] at hthen
        exact h.toLayout.owner_start (himage.load s hmem) hk howner hthen
  · rw [if_neg hfile]
    exact hnot hsize fun hc => hfile hc.1

theorem PagesAgree.places (himage : IsImage segments) (h : PagesAgree segments) :
    PlacesImage segments where
  copies := by
    intro before s after maps maps₁ hsplit hrun hto
    have hs : segments[before.length]? = some s := by
      rw [hsplit]
      simp
    obtain ⟨dest, order, rfl, houtcome⟩ := run_outcome himage hsplit hrun
    obtain ⟨mapped, rfl, hlayout⟩ := houtcome.map hs hto
    refine (hlayout.copy himage hs).1 fun j t howner ht => ?_
    obtain ⟨t', hans⟩ := hlayout.owner_mayAnswer howner
    obtain rfl : t = t' := Option.some.inj (ht.symm.trans hans.segment)
    exact h.fits _ s hs j t hans
  bytes := by
    intro maps hrun s hmem k hk
    obtain ⟨dest, order, rfl, houtcome⟩ := run_outcome himage (List.append_nil _).symm hrun
    obtain ⟨i, hi, rfl⟩ := List.getElem_of_mem hmem
    exact h.loadByte himage houtcome (List.getElem?_eq_getElem hi) hk

/-- The image is in place exactly when the shared pages do no harm. -/
theorem placesImage_iff (himage : IsImage segments) :
    PlacesImage segments ↔ PagesAgree segments :=
  ⟨fun h => h.agree himage, fun h => h.places himage⟩

end Places

/-- No two segments share a page, and none has the whole address space. -/
structure PagesApart (segments : List DecryptedSegment) : Prop where
  pages : segments.Pairwise fun a b => ∀ x, a.Covers x → ¬ b.Covers x
  bounded : ∀ s ∈ segments, ∀ x, s.Covers x → s.mapSize ≠ 0

theorem PagesApart.index_unique (h : PagesApart segments) {i j : Nat} {s t : DecryptedSegment}
    {x : Word} (hs : segments[i]? = some s) (ht : segments[j]? = some t) (hsx : s.Covers x)
    (htx : t.Covers x) : i = j := by
  obtain ⟨hi, rfl⟩ := List.getElem?_eq_some_iff.mp hs
  obtain ⟨hj, rfl⟩ := List.getElem?_eq_some_iff.mp ht
  have hpages := List.pairwise_iff_getElem.mp h.pages
  rcases Nat.lt_trichotomy i j with hlt | heq | hgt
  · exact absurd htx (hpages i j hi hj hlt x hsx)
  · exact heq
  · exact absurd hsx (hpages j i hj hi hgt x htx)

/-- Segments on pages of their own are their own maps' only. -/
theorem PagesApart.agree (himage : IsImage segments) (h : PagesApart segments) :
    PagesAgree segments := by
  have hown : ∀ i s, segments[i]? = some s → ∀ k < s.phdr.pMemsz.toNat, ∀ n j t,
      MayAnswer segments n j t (s.vaddr + BitVec.ofNat 32 k) → j = i ∧ t = s := by
    intro i s hs k hk n j t hans
    have hload := himage.load s (List.mem_of_getElem? hs)
    obtain rfl := h.index_unique hans.segment hs hans.covers (hload.covers hk)
    exact ⟨rfl, Option.some.inj (hans.segment.symm.trans hs)⟩
  refine ⟨fun i s hs j t hans => ?_, fun s hs k hk j t hans => ?_, fun i s hs k hk _ j t hans => ?_⟩
  · by_cases hzero : s.segmentLength = 0
    · exact .inl hzero
    · have hmem := List.mem_of_getElem? hs
      have hload := himage.load s hmem
      have hstart : s.vaddr = s.vaddr + BitVec.ofNat 32 0 := (BitVec.add_zero _).symm
      obtain ⟨rfl, rfl⟩ :=
        hown i s hs 0 (hload.lt_memsz (k := 0) (by omega)) (i + 1) j t (hstart ▸ hans)
      -- the last byte of the file is in the map, whose buffer has not wrapped
      have hlt := hload.lt_memsz (k := t.segmentLength - 1) (by omega)
      have hlast := hload.covers hlt
      have hadd := hload.toNat_add hlt
      have hsize := h.bounded t hmem _ hlast
      obtain ⟨hlo, hhi⟩ := hlast
      right
      unfold DecryptedSegment.mapSize at hsize ⊢
      bv_omega
  · exact h.bounded t (List.mem_of_getElem? hans.segment) _ hans.covers
  · have hmem := List.mem_of_getElem? hs
    have hload := himage.load s hmem
    obtain ⟨rfl, rfl⟩ := hown i s hs k (hload.lt_memsz hk) _ j t hans
    have hfirst := hload.covers (hload.lt_memsz (k := 0) (by omega))
    rw [BitVec.add_zero] at hfirst
    refine ⟨⟨Nat.lt_succ_self j, hs, hfirst, fun i' _ u hu hcu => ?_⟩, fun _ j' t' hans' => ?_⟩
    · obtain rfl := h.index_unique hu hs hcu hfirst
      obtain rfl : t = u := Option.some.inj (hs.symm.trans hu)
      exact BitVec.le_refl _
    · exact h.index_unique hans'.segment hs hans'.covers hfirst

theorem PagesApart.laid (himage : IsImage segments) (h : PagesApart segments)
    (hmemsz : ∀ s ∈ segments, s.phdr.pMemsz ≠ 0) : Laid (mapsOfSegments segments) := by
  have hall : segments.filter DecryptedSegment.isMapped = segments :=
    List.filter_eq_self.mpr fun s hs => (himage.load s hs).isMapped
  rw [mapsOfSegments, hall]
  refine ⟨fun it hit => ?_, List.pairwise_map.mpr (h.pages.imp fun hab => ?_)⟩
  · obtain ⟨s, hs, rfl⟩ := List.mem_map.mp hit
    have hpos : 0 < s.phdr.pMemsz.toNat := by
      have hne := hmemsz s hs
      bv_omega
    have hcov := (himage.load s hs).covers hpos
    exact BitVec.le_trans hcov.1 hcov.2
  · exact MemoryMap.apart_of_not_covers hab

/-- Segments on pages of their own leave the sort no choice: the loop ends with the list that
`mapSegments` computes. -/
theorem PagesApart.run_iff (himage : IsImage segments) (h : PagesApart segments)
    (hmemsz : ∀ s ∈ segments, s.phdr.pMemsz ≠ 0) {maps : List MemoryMap} :
    Steps MapsSegment [] segments maps ↔
      ∃ bottomAddress, mapSegments segments 0xFFFFFFFF#32 [] = .ok (bottomAddress, maps) := by
  constructor
  · exact mapSegments_of_run (by rw [List.nil_append]; exact h.laid himage hmemsz)
  · rintro ⟨bottomAddress, hok⟩
    exact mapSegments_run hok

/-- Image placement: for segments with disjoint ranges, the image is in place after the
mapping loop exactly when the pages that segments share do no harm, in particular when
they share none. -/
theorem image_placement_iff (himage : IsImage segments) :
    (PlacesImage segments ↔ PagesAgree segments) ∧ (PagesApart segments → PlacesImage segments) :=
  ⟨placesImage_iff himage, fun h => (placesImage_iff himage).mpr (h.agree himage)⟩

end Runs

/-- A loadable segment of an image. -/
def imageSegment (name : String) (vaddr filesz memsz : Word) (data : List Byte) :
    DecryptedSegment where
  name := name
  data := data
  segmentLength := filesz.toNat
  relocatable := false
  canLoad := true
  phdr :=
    { ELFPhdr32.zero with pType := PT_LOAD, pVaddr := vaddr, pFilesz := filesz, pMemsz := memsz }

theorem imageSegment_isLoad {name : String} {vaddr filesz memsz : Word} {data : List Byte}
    (hfilesz : filesz.toNat ≤ memsz.toNat) (hdata : filesz.toNat ≤ data.length)
    (hwrap : vaddr.toNat + memsz.toNat ≤ 2 ^ 32) :
    (imageSegment name vaddr filesz memsz data).IsLoad :=
  ⟨rfl, rfl, rfl, hfilesz, hdata, hwrap⟩

/-- Two segments on pages of their own. -/
def ownPages : List DecryptedSegment :=
  [imageSegment "program_segment_0" 0x81001000#32 1#32 0x10#32 [0x41#8],
    imageSegment "program_segment_1" 0x81000000#32 2#32 0x1000#32 [0x42#8, 0x43#8]]

/-- Two segments that share the page `0x81000000`; their maps have equal ends. -/
def pageHalves : List DecryptedSegment :=
  [imageSegment "program_segment_0" 0x81000000#32 1#32 0x100#32 [0x41#8],
    imageSegment "program_segment_1" 0x81000100#32 1#32 0x100#32 [0x42#8]]

theorem ownPages_isImage : IsImage ownPages := by
  refine ⟨fun s hs => ?_, List.pairwise_pair.mpr (Set.disjoint_left.mpr fun n hn hn' => ?_)⟩
  · rcases List.mem_pair.mp hs with rfl | rfl <;>
      exact imageSegment_isLoad (by decide) (by decide) (by decide)
  · have hge : 0x81001000 ≤ n := hn.1
    have hlt : n < 0x81001000 := hn'.2
    omega

theorem ownPages_apart : PagesApart ownPages := by
  refine ⟨List.pairwise_pair.mpr fun x hx hx' => ?_, fun s hs x _ => ?_⟩
  · have hge : 0x81001000#32 ≤ x := hx.1
    have hle : x ≤ 0x81000FFF#32 := hx'.2
    bv_omega
  · rcases List.mem_pair.mp hs with rfl | rfl <;> decide

theorem pageHalves_isImage : IsImage pageHalves := by
  refine ⟨fun s hs => ?_, List.pairwise_pair.mpr (Set.disjoint_left.mpr fun n hn hn' => ?_)⟩
  · rcases List.mem_pair.mp hs with rfl | rfl <;>
      exact imageSegment_isLoad (by decide) (by decide) (by decide)
  · have hlt : n < 0x81000100 := hn.2
    have hge : 0x81000100 ≤ n := hn'.1
    omega

/-- Only the first map covers the first segment; both may answer for the second one, which is
copied last, so that later lookups agree with the copy. -/
theorem pageHalves_agree : PagesAgree pageHalves := by
  have hsegment : ∀ {i s}, pageHalves[i]? = some s →
      i = 0 ∧ s = pageHalves[0] ∨ i = 1 ∧ s = pageHalves[1] := by
    intro i s hs
    match i, hs with
    | 0, rfl => exact .inl ⟨rfl, rfl⟩
    | 1, rfl => exact .inr ⟨rfl, rfl⟩
  refine ⟨fun i s hs j t hans => ?_, fun s hs k hk j t hans => ?_,
    fun i s hs k hk _ j t hans => ?_⟩
  · have hlt := hans.lt
    rcases hsegment hs with ⟨rfl, rfl⟩ | ⟨rfl, rfl⟩ <;>
      rcases hsegment hans.segment with ⟨rfl, rfl⟩ | ⟨rfl, rfl⟩
    · exact .inr (by decide)
    · omega
    · exact .inr (by decide)
    · exact .inr (by decide)
  · rcases hsegment hans.segment with ⟨rfl, rfl⟩ | ⟨rfl, rfl⟩ <;> decide
  · have hfirst : k = 0 := by
      rcases hsegment hs with ⟨rfl, rfl⟩ | ⟨rfl, rfl⟩ <;> exact Nat.lt_one_iff.mp hk
    subst hfirst
    rw [BitVec.add_zero] at hans
    rcases hsegment hs with ⟨rfl, rfl⟩ | ⟨rfl, rfl⟩
    · obtain ⟨rfl, rfl⟩ : j = 0 ∧ t = pageHalves[0] := by
        refine (hsegment hans.segment).resolve_right ?_
        rintro ⟨rfl, rfl⟩
        exact absurd hans.covers (by decide)
      refine ⟨⟨by decide, rfl, by decide, fun i hi u hu _ => ?_⟩, fun _ j' t' hans' => ?_⟩
      · obtain rfl := Nat.lt_one_iff.mp hi
        cases hu
        exact BitVec.le_refl _
      · exact Nat.lt_one_iff.mp hans'.lt
    · exact ⟨hans, fun hlast => absurd hlast (by decide)⟩

/-- Both are in place, the second whatever the sort makes of the two maps. -/
theorem image_placement_two : PlacesImage ownPages ∧ PlacesImage pageHalves :=
  ⟨(image_placement_iff ownPages_isImage).2 ownPages_apart,
    (image_placement_iff pageHalves_isImage).1.mpr pageHalves_agree⟩

/-- Two segments that share the page `0x81000000`. -/
def sharedPageSegments : List DecryptedSegment :=
  [imageSegment "program_segment_0" 0x81000000#32 0#32 0x100#32 [],
    imageSegment "program_segment_1" 0x81000100#32 0x1000#32 0x1000#32 (List.replicate 0x1000 0x41)]

/-- The second segment is copied to the map of the first, and `0x100` bytes past its end; the
ends of the two maps differ, so that the sort has no choice. -/
theorem image_placement_overflows :
    IsImage sharedPageSegments ∧ ¬ PlacesImage sharedPageSegments ∧
      ¬ ∃ maps, Steps MapsSegment [] sharedPageSegments maps := by
  have himage : IsImage sharedPageSegments := by
    refine ⟨fun s hs => ?_, ?_⟩
    · rcases List.mem_cons.mp hs with rfl | hs
      · exact imageSegment_isLoad (by decide) (by decide) (by decide)
      · obtain rfl := List.mem_singleton.mp hs
        exact imageSegment_isLoad (by decide) (by rw [List.length_replicate]; decide) (by decide)
    · refine List.pairwise_pair.mpr (Set.disjoint_left.mpr fun n hn hn' => ?_)
      have hlt : n < 0x81000100 := hn.2
      have hge : 0x81000100 ≤ n := hn'.1
      omega
  have hans : MayAnswer sharedPageSegments 2 0
      (imageSegment "program_segment_0" 0x81000000#32 0#32 0x100#32 []) 0x81000100#32 := by
    refine ⟨by decide, rfl, by decide, fun i hi u hu _ => ?_⟩
    rcases Nat.lt_succ_iff_lt_or_eq.mp hi with hlt | rfl
    · obtain rfl : i = 0 := by omega
      cases hu
      exact BitVec.le_refl _
    · cases hu
      decide
  refine ⟨himage, fun hplaces => ?_, fun ⟨maps, hrun⟩ => ?_⟩
  · exact absurd ((hplaces.agree himage).fits 1 _ rfl 0 _ hans) (by decide)
  · have hsplit : sharedPageSegments = [sharedPageSegments[0]] ++ [sharedPageSegments[1]] := rfl
    obtain ⟨j, t, hans', hfits⟩ := run_fits himage hsplit hrun hans
    rcases Nat.lt_succ_iff_lt_or_eq.mp hans'.lt with hlt | rfl
    · obtain rfl : j = 0 := by
        have hj : j < 1 := hlt
        omega
      cases hans.segment.symm.trans hans'.segment
      exact absurd hfits (by decide)
    · -- the map of the second segment ends behind that of the first
      have hle := hans'.first 0 (by decide) _ rfl hans.covers
      cases hans'.segment
      exact absurd hle (by decide)

end Betavita.Loader
