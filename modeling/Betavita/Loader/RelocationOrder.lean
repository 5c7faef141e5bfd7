import Betavita.Lib.Assignment
import Betavita.Loader.RelocationField

/-!
# self_loader.cpp — the order of relocations

Guest memory is seen bit by bit. A relocation of any type, also one that merges its field
into the old word, is then a constant assignment to the bits that the code writes at its
place, and a pass that succeeds carries out the assignments of all its entries in order.
So a second pass changes nothing, and entries whose words do not overlap can be permuted.
-/

namespace Betavita.Loader

open Memory ByteBuffer

/-! ## Memory as bits -/

/-- A byte and one of its bits. -/
abbrev BitPlace := HostPtr × Fin 8

def bitAt (maps : List MemoryMap) (place : BitPlace) : Option Bool :=
  (byteAt maps place.1).map fun byte => byte.getLsbD place.2

/-- Maps with the same headers and the same bits are the same. -/
theorem eq_of_bitAt {maps maps' : List MemoryMap} (hsame : SameMaps maps maps')
    (h : bitAt maps = bitAt maps') : maps = maps' := by
  apply List.ext_getElem?
  intro i
  cases hit : maps[i]? with
  | none =>
    rw [List.getElem?_eq_none_iff, hsame.length] at hit
    rw [List.getElem?_eq_none hit]
  | some it =>
    obtain ⟨it', hit', hheader⟩ := hsame.getElem? hit
    rw [hit']
    refine congrArg some (MemoryMap.eq_of_header hheader (List.ext_getElem? fun o => ?_))
    have hbits : ∀ j : Fin 8,
        (it.data[o]?).map (·.getLsbD j) = (it'.data[o]?).map (·.getLsbD j) := by
      intro j
      simpa [bitAt, byteAt, hit, hit'] using congrFun h (⟨i, o⟩, j)
    cases hb : it.data[o]? with
    | none => simpa [hb, eq_comm] using hbits 0
    | some byte =>
      cases hb' : it'.data[o]? with
      | none => simpa [hb, hb'] using hbits 0
      | some byte' =>
        refine congrArg some (BitVec.eq_of_getLsbD_eq fun j hj => ?_)
        simpa [hb, hb'] using hbits ⟨j, hj⟩

theorem decode_testBit {bs : List Byte} {k j : Nat} (hj : j < 8) (hk : k < bs.length) :
    (decode bs).testBit (8 * k + j) = bs[k].getLsbD j := by
  induction bs generalizing k with
  | nil => simp at hk
  | cons b bs ih =>
    have hdecode : decode (b :: bs) = 2 ^ 8 * decode bs + b.toNat := Nat.add_comm _ _
    rw [hdecode, Nat.testBit_two_pow_mul_add _ b.isLt]
    cases k with
    | zero => simp [hj, BitVec.getLsbD]
    | succ k =>
      rw [if_neg (by omega), show 8 * (k + 1) + j - 8 = 8 * k + j by omega,
        ih (by simpa using hk)]
      rfl

/-- The bits of a word are those of its four bytes. -/
theorem bitAt_of_readWord {maps : List MemoryMap} {p : HostPtr} {w : Word}
    (h : readWord maps p = .ok w) {k : Nat} (hk : k < 4) (j : Fin 8) :
    bitAt maps (p.add k, j) = some (w.getLsbD (8 * k + j)) := by
  obtain ⟨bytes, hbytes, hw⟩ := bind_ok.mp h
  cases hw
  have hlen := readBytes_length hbytes
  rw [bitAt, ← readBytes_getElem? hbytes hk, List.getElem?_eq_getElem (by omega),
    BitVec.getLsbD_ofNat, decode_testBit j.isLt (by omega)]
  simp [show 8 * k + j.val < 32 by omega]

/-! ## One relocation as an assignment -/

/-- The arguments of one `apply_one_relocation`. -/
structure Patch where
  relocationType : Byte
  S : Word
  A : Word
  P : Word

/-- The bits of the word at `p` under the mask become those of `value`. -/
def wordAssignment (p : HostPtr) (mask value : Word) : Assignment BitPlace (Option Bool) where
  places := {place | ∃ k < 4, place.1 = p.add k ∧ mask.getLsbD (8 * k + place.2) = true}
  value := fun place => some (value.getLsbD (8 * (place.1.offset - p.offset) + place.2))

/-- A pointer that is none of the four is clear of the word. -/
theorem clear_of_ne_add {p q : HostPtr} (h : ¬ ∃ k < 4, q = p.add k) : q.Clear 1 p 4 := by
  by_contra hno
  simp only [HostPtr.Clear, not_or, Decidable.not_not, Nat.not_le] at hno
  obtain ⟨hmap, hlo, hhi⟩ := hno
  refine h ⟨q.offset - p.offset, by omega, ?_⟩
  obtain ⟨i, o⟩ := q
  obtain ⟨i', o'⟩ := p
  simp only at hmap hlo hhi
  simp only [HostPtr.add, HostPtr.mk.injEq]
  exact ⟨hmap, by omega⟩

/-- To merge a value into a word under a mask is to assign the bits under the mask. -/
theorem bitAt_writeWord_merge {maps maps' : List MemoryMap} {p : HostPtr} {old mask value : Word}
    (hread : readWord maps p = .ok old)
    (hwrite : writeWord maps p ((old &&& ~~~mask) ||| (value &&& mask)) = .ok maps') :
    bitAt maps' = Assignment.write (bitAt maps) (wordAssignment p mask value) := by
  funext ⟨q, j⟩
  by_cases hin : ∃ k < 4, q = p.add k
  · obtain ⟨k, hk, rfl⟩ := hin
    have hoff : (p.add k).offset - p.offset = k := Nat.add_sub_cancel_left _ _
    have hbit : 8 * k + j.val < 32 := by omega
    rw [bitAt_of_readWord (readWord_writeWord_self hwrite) hk]
    by_cases hm : mask.getLsbD (8 * k + j) = true
    · have hmem : (p.add k, j) ∈ (wordAssignment p mask value).places := ⟨k, hk, rfl, hm⟩
      rw [Assignment.write_of_mem hmem]
      simp only [wordAssignment, hoff, BitVec.getLsbD_or, BitVec.getLsbD_and, BitVec.getLsbD_not,
        hm, hbit, decide_true, Bool.not_true, Bool.and_false, Bool.false_or, Bool.and_true]
    · have hmem : (p.add k, j) ∉ (wordAssignment p mask value).places := by
        rintro ⟨k', _, hk', hm'⟩
        have hkk : k = k' := Nat.add_left_cancel (congrArg HostPtr.offset hk')
        exact hm (hkk ▸ hm')
      rw [Assignment.write_of_not_mem hmem, bitAt_of_readWord hread hk]
      simp only [BitVec.getLsbD_or, BitVec.getLsbD_and, BitVec.getLsbD_not, hm, hbit, decide_true,
        Bool.not_false, Bool.and_true, Bool.and_false, Bool.or_false]
  · have hmem : (q, j) ∉ (wordAssignment p mask value).places :=
      fun ⟨k, hk, hq, _⟩ => hin ⟨k, hk, hq⟩
    have hclear : q.Clear 1 p (encode 4 ((old &&& ~~~mask) ||| (value &&& mask)).toNat).length := by
      rw [encode_length]
      exact clear_of_ne_add hin
    rw [Assignment.write_of_not_mem hmem, bitAt, bitAt, writeBytes_byteAt_clear hwrite hclear]

/-- The assignment that a relocation makes, if its place is mapped. -/
def Patch.assignment (maps : List MemoryMap) (c : Patch) : Assignment BitPlace (Option Bool) :=
  match getPointerUnchecked maps c.P with
  | some p => wordAssignment p (writtenMask c.relocationType)
      (patchedWord c.relocationType c.S c.A c.P 0)
  | none => ⟨∅, fun _ => none⟩

theorem Patch.assignment_congr {maps maps' : List MemoryMap} (h : SameMaps maps maps')
    (c : Patch) : c.assignment maps = c.assignment maps' := by
  rw [assignment, assignment, h.getPointerUnchecked]

/-- Patches of words without a common address make assignments without a common bit. -/
theorem Patch.assignment_apart {maps : List MemoryMap} {c d : Patch}
    (h : AreasApart c.P 4 d.P 4) : (c.assignment maps).Apart (d.assignment maps) := by
  intro place hc hd
  cases hp : getPointerUnchecked maps c.P with
  | none => simp [assignment, hp] at hc
  | some p =>
    cases hq : getPointerUnchecked maps d.P with
    | none => simp [assignment, hq] at hd
    | some q =>
      simp only [assignment, hp] at hc
      simp only [assignment, hq] at hd
      obtain ⟨k, hk, hplace, _⟩ := hc
      obtain ⟨k', hk', hplace', _⟩ := hd
      have hadd : p.add k = q.add k' := hplace.symm.trans hplace'
      simp only [HostPtr.add, HostPtr.mk.injEq] at hadd
      obtain ⟨hmap, hoff⟩ := hadd
      rcases h.clear hp hq (by decide) (by decide) with hne | hle | hle
      · exact hne hmap
      · omega
      · omega

/-- An accepted relocation makes its assignment and nothing else. -/
theorem bitAt_applyOneRelocation {maps maps' : List MemoryMap} {relocationType : Byte}
    {S A P : Word} (h : applyOneRelocation maps relocationType S A P = .ok (true, maps')) :
    bitAt maps' =
      Assignment.write (bitAt maps) ((Patch.mk relocationType S A P).assignment maps) := by
  obtain ⟨p, old, hp, hread, hwrite⟩ := applyOneRelocation_true h
  have hi : Implemented relocationType := by
    by_contra hno
    rw [applyOneRelocation_refused fun hacc => hno hacc.1] at h
    cases h
  rw [patchedWord_merge hi] at hwrite
  rw [Patch.assignment, hp]
  exact bitAt_writeWord_merge hread hwrite

/-! ## A pass as assignments -/

section Run

variable {segments segments' : List DecryptedSegment} {scale : Word} {maps maps' : List MemoryMap}

/-- The patches of an entry. -/
def entryPatches (segments : List DecryptedSegment) (scale : Word) (e : EntryFormat0) :
    List Patch :=
  let S := symbolAddress segments e
  let P := patchAddress segments e
  ⟨e.code, S, e.addend, P⟩ ::
    if e.code2 ≠ 0 then [⟨e.code2, S, e.addend, P + scale * e.dist2.setWidth 32⟩] else []

/-- The patches of all entries, in order. -/
def tablePatches (segments : List DecryptedSegment) (scale : Word) (es : List EntryFormat0) :
    List Patch := es.flatMap (entryPatches segments scale)

theorem bitAt_patchEntry {e : EntryFormat0}
    (h : patchEntry segments scale e maps = .ok (true, maps')) :
    bitAt maps' = Assignment.writeAll (bitAt maps)
      ((entryPatches segments scale e).map (Patch.assignment maps)) := by
  by_cases hcode2 : e.code2 = 0
  · obtain ⟨⟨applied, maps₁⟩, hfirst, h⟩ := bind_ok.mp h
    simp only [hcode2, ne_eq, not_true_eq_false, and_false, if_false] at h
    cases h
    simp only [entryPatches, hcode2, ne_eq, not_true_eq_false, if_false, List.map_cons,
      List.map_nil, Assignment.writeAll_cons, Assignment.writeAll_nil]
    exact bitAt_applyOneRelocation hfirst
  · obtain ⟨maps₁, hfirst, hsecond⟩ := patchEntry_both hcode2 h
    have hsame := applyOneRelocation_sameMaps hfirst
    simp only [entryPatches, hcode2, ne_eq, not_false_eq_true, if_true, List.map_cons,
      List.map_nil, Assignment.writeAll_cons, Assignment.writeAll_nil]
    rw [← bitAt_applyOneRelocation hfirst, Patch.assignment_congr hsame]
    exact bitAt_applyOneRelocation hsecond

theorem runEntries_sameMaps {b : Bool} {es : List EntryFormat0}
    (h : runEntries segments scale es maps = .ok (b, maps')) : SameMaps maps maps' := by
  induction es generalizing maps with
  | nil =>
    cases h
    exact .refl _
  | cons e es ih =>
    obtain ⟨⟨applied, maps₁⟩, hentry, h⟩ := bind_ok.mp h
    have hsame := patchEntry_sameMaps hentry
    cases applied with
    | false =>
      cases h
      exact hsame
    | true => exact hsame.trans (ih h)

/-- A run that succeeds carries out the assignments of its entries in order. -/
theorem bitAt_runEntries {es : List EntryFormat0}
    (h : runEntries segments scale es maps = .ok (true, maps')) :
    bitAt maps' = Assignment.writeAll (bitAt maps)
      ((tablePatches segments scale es).map (Patch.assignment maps)) := by
  induction es generalizing maps with
  | nil =>
    cases h
    rfl
  | cons e es ih =>
    obtain ⟨⟨applied, maps₁⟩, hentry, h⟩ := bind_ok.mp h
    cases applied with
    | false => cases h
    | true =>
      have hassign : Patch.assignment maps₁ = Patch.assignment maps :=
        funext fun c => (c.assignment_congr (patchEntry_sameMaps hentry)).symm
      rw [ih h, hassign, bitAt_patchEntry hentry, ← Assignment.writeAll_append, ← List.map_append]
      rfl

/-- No word that the entries patch sticks out of its map. -/
def AllFit (segments : List DecryptedSegment) (scale : Word) (maps : List MemoryMap)
    (es : List EntryFormat0) : Prop := ∀ e ∈ es, Fits segments scale maps e

theorem AllFit.runFits {es : List EntryFormat0} (h : AllFit segments scale maps es) :
    RunFits segments scale maps es := by
  intro pre e post hes _
  exact h e (by rw [hes]; simp)

theorem AllFit.congr {es : List EntryFormat0} (hsame : SameMaps maps maps')
    (h : AllFit segments scale maps es) : AllFit segments scale maps' es :=
  fun e he => (Fits.congr hsame).mp (h e he)

/-- Run again, the entries leave memory as it is. -/
theorem runEntries_again {es : List EntryFormat0} (hfit : AllFit segments scale maps es)
    (h : runEntries segments scale es maps = .ok (true, maps')) :
    runEntries segments scale es maps' = .ok (true, maps') := by
  have hsame := runEntries_sameMaps h
  obtain ⟨b, maps₁, hfirst, hflag, _⟩ := runEntries_ok hfit.runFits
  rw [hfirst] at h
  cases h
  obtain ⟨b', maps₂, hsecond, hflag', _⟩ := runEntries_ok (hfit.congr hsame).runFits
  have haccept : ∀ e ∈ es, Accepts segments scale maps' e :=
    fun e he => (Accepts.congr hsame).mp (hflag.mp rfl e he)
  obtain rfl : b' = true := hflag'.mpr haccept
  have hassign : Patch.assignment maps' = Patch.assignment maps :=
    funext fun c => (c.assignment_congr hsame).symm
  have hbits : bitAt maps₂ = bitAt maps' := by
    rw [bitAt_runEntries hsecond, hassign, bitAt_runEntries hfirst, Assignment.writeAll_writeAll]
  rw [hsecond, eq_of_bitAt (runEntries_sameMaps hsecond).symm hbits]

/-- The words of all patches of the entries are pairwise disjoint. -/
def WordsApart (segments : List DecryptedSegment) (scale : Word) (es : List EntryFormat0) : Prop :=
  (tablePatches segments scale es).Pairwise fun c d => AreasApart c.P 4 d.P 4

/-- In another order the entries give the same flag, and from words that do not overlap
the same memory. -/
theorem runEntries_perm {es es' : List EntryFormat0} (hp : es'.Perm es)
    (hfit : AllFit segments scale maps es) :
    ∃ b maps₁ maps₂, runEntries segments scale es maps = .ok (b, maps₁) ∧
      runEntries segments scale es' maps = .ok (b, maps₂) ∧
      (b = true → WordsApart segments scale es → maps₂ = maps₁) := by
  have hfit' : AllFit segments scale maps es' := fun e he => hfit e (hp.mem_iff.mp he)
  obtain ⟨b, maps₁, hrun, hflag, _⟩ := runEntries_ok hfit.runFits
  obtain ⟨b', maps₂, hrun', hflag', _⟩ := runEntries_ok hfit'.runFits
  have hb : b = b' := by
    rw [Bool.eq_iff_iff, hflag, hflag']
    exact ⟨fun h e he => h e (hp.mem_iff.mp he), fun h e he => h e (hp.mem_iff.mpr he)⟩
  subst hb
  refine ⟨b, maps₁, maps₂, hrun, hrun', ?_⟩
  rintro rfl hwords
  have hpatches : (tablePatches segments scale es).Perm (tablePatches segments scale es') :=
    hp.symm.flatMap_right _
  have hd : ((tablePatches segments scale es).map (Patch.assignment maps)).Pairwise
      Assignment.Apart := List.pairwise_map.mpr (hwords.imp Patch.assignment_apart)
  have hsame := (runEntries_sameMaps hrun').symm.trans (runEntries_sameMaps hrun)
  refine eq_of_bitAt hsame ?_
  rw [bitAt_runEntries hrun, bitAt_runEntries hrun',
    Assignment.writeAll_perm (hpatches.map (Patch.assignment maps)) hd]

/-- Only the load addresses of the segments matter. -/
theorem runEntries_congr
    (h : segments'.map (·.phdr.pVaddr) = segments.map (·.phdr.pVaddr)) (es : List EntryFormat0)
    (maps : List MemoryMap) :
    runEntries segments' scale es maps = runEntries segments scale es maps := by
  have hget : ∀ i : Nat, (segments'[i]?).map (·.phdr.pVaddr) =
      (segments[i]?).map (·.phdr.pVaddr) := by
    intro i
    rw [← List.getElem?_map, h, List.getElem?_map]
  have hsymbol : symbolAddress segments' = symbolAddress segments := by
    funext e
    have hi := hget e.symbolSegment.toNat
    unfold symbolAddress
    cases hs : segments[e.symbolSegment.toNat]? <;>
      cases hs' : segments'[e.symbolSegment.toNat]? <;> simp_all
  have hpatch : patchAddress segments' = patchAddress segments := by
    funext e
    have hi := hget e.patchSegment.toNat
    unfold patchAddress
    cases hs : segments[e.patchSegment.toNat]? <;>
      cases hs' : segments'[e.patchSegment.toNat]? <;> simp_all
  have hentry : ∀ e maps, patchEntry segments' scale e maps = patchEntry segments scale e maps := by
    intro e maps
    rw [patchEntry, patchEntry, hsymbol, hpatch]
  induction es generalizing maps with
  | nil => rfl
  | cons e es ih =>
    rw [runEntries, runEntries, hentry]
    simp only [ih]

end Run

/-! ## The pass over the tables -/

/-- The entries of the relocatable segments of a list. -/
def relocationEntries (rest : List DecryptedSegment) : List EntryFormat0 :=
  (rest.filter (·.relocatable)).flatMap DecryptedSegment.entries

/-- The loop of `do_self_relocation_program_data` over segments `rest`, all of them or
some: where it succeeds and every patched word lies in its map, doing it again changes
nothing; and over tables whose entries are a permutation of these, with the segments
loaded at the same addresses, it returns the same flag, and ends in the same memory if no
two patched words overlap. -/
theorem relocateSegments_order {segments segments' rest rest' : List DecryptedSegment}
    {maps : List MemoryMap}
    (htable : ∀ seg ∈ rest, seg.relocatable → seg.IsTable)
    (htable' : ∀ seg ∈ rest', seg.relocatable → seg.IsTable)
    (haddr : segments'.map (·.phdr.pVaddr) = segments.map (·.phdr.pVaddr))
    (hperm : (relocationEntries rest').Perm (relocationEntries rest))
    (hfit : AllFit segments 4#32 maps (relocationEntries rest)) :
    ∃ performed maps₁ maps₂, relocateSegments segments rest maps = .ok (performed, maps₁) ∧
      relocateSegments segments' rest' maps = .ok (performed, maps₂) ∧
      (performed = true →
        relocateSegments segments rest maps₁ = .ok (true, maps₁) ∧
        (WordsApart segments 4#32 (relocationEntries rest) → maps₂ = maps₁)) := by
  obtain ⟨b, maps₁, maps₂, hrun, hrun', hmem⟩ := runEntries_perm hperm hfit
  rw [← runEntries_congr haddr] at hrun'
  refine ⟨b, maps₁, maps₂, (relocateSegments_eq htable maps).trans hrun,
    (relocateSegments_eq htable' maps).trans hrun', ?_⟩
  rintro rfl
  exact ⟨(relocateSegments_eq htable maps₁).trans (runEntries_again hfit hrun), hmem rfl⟩

/-- A segment at `0x81000000` and a table of `ABS32` entries for it, each with an addend and
an offset. -/
def abs32Table (rows : List (Word × Word)) : List DecryptedSegment :=
  [⟨"program_segment_0", [], 0, false, true,
      { ELFPhdr32.zero with pType := PT_LOAD, pVaddr := 0x81000000#32 }⟩,
    ⟨"program_segment_1",
      rows.flatMap fun row => encode 4 0x200 ++ encode 4 row.1.toNat ++ encode 4 row.2.toNat,
      12 * rows.length, true, true,
      { ELFPhdr32.zero with pType := PT_SCE_RELA, pFilesz := BitVec.ofNat 32 (12 * rows.length) }⟩]

def twoEntries : List DecryptedSegment := abs32Table [(1, 0), (2, 4)]
def twoEntriesSwapped : List DecryptedSegment := abs32Table [(2, 4), (1, 0)]

theorem twoEntries_isTable {rest : List DecryptedSegment}
    (h : rest = twoEntries ∨ rest = twoEntriesSwapped) :
    ∀ seg ∈ rest, seg.relocatable → seg.IsTable := by
  intro seg hseg hr
  rcases h with rfl | rfl <;>
    simp only [twoEntries, twoEntriesSwapped, abs32Table, List.mem_cons, List.not_mem_nil,
      or_false] at hseg <;>
    rcases hseg with rfl | rfl
  · cases hr
  · exact ⟨by decide, by decide, by decide⟩
  · cases hr
  · exact ⟨by decide, by decide, by decide⟩

/-- Two entries, in either order and once more. -/
theorem relocateSegments_order_swap :
    ∃ maps₁, relocateSegments twoEntries twoEntries segmentMaps = .ok (true, maps₁) ∧
      relocateSegments twoEntriesSwapped twoEntriesSwapped segmentMaps = .ok (true, maps₁) ∧
      relocateSegments twoEntries twoEntries maps₁ = .ok (true, maps₁) := by
  have hentries : relocationEntries twoEntries =
      [⟨0#4, 2#8, 0#4, 0#8, 0#4, 1#32, 0#32⟩, ⟨0#4, 2#8, 0#4, 0#8, 0#4, 2#32, 4#32⟩] := by decide
  have hswapped : relocationEntries twoEntriesSwapped =
      [⟨0#4, 2#8, 0#4, 0#8, 0#4, 2#32, 4#32⟩, ⟨0#4, 2#8, 0#4, 0#8, 0#4, 1#32, 0#32⟩] := by decide
  have hfit : AllFit twoEntries 4#32 segmentMaps (relocationEntries twoEntries) := by
    rw [hentries]
    intro e he
    simp only [List.mem_cons, List.not_mem_nil, or_false] at he
    rcases he with rfl | rfl
    · exact ⟨fun _ => (segmentMaps_place (.inl rfl)).2, fun _ _ hne => absurd rfl hne⟩
    · exact ⟨fun _ => (segmentMaps_place (.inr rfl)).2, fun _ _ hne => absurd rfl hne⟩
  have hwords : WordsApart twoEntries 4#32 (relocationEntries twoEntries) := by
    rw [hentries]
    exact List.pairwise_pair.mpr (by decide)
  have hperm : (relocationEntries twoEntriesSwapped).Perm (relocationEntries twoEntries) := by
    rw [hentries, hswapped]
    exact List.Perm.swap _ _ []
  have haddr : twoEntriesSwapped.map (·.phdr.pVaddr) = twoEntries.map (·.phdr.pVaddr) := by decide
  obtain ⟨performed, maps₁, maps₂, hrun, hrun', hrest⟩ := relocateSegments_order
    (twoEntries_isTable (.inl rfl)) (twoEntries_isTable (.inr rfl)) haddr hperm hfit
  have hpass : relocateSegments twoEntries twoEntries segmentMaps =
      runEntries twoEntries 4#32 (relocationEntries twoEntries) segmentMaps :=
    relocateSegments_eq (twoEntries_isTable (.inl rfl)) segmentMaps
  have hflag : (runEntries twoEntries 4#32 (relocationEntries twoEntries)
      segmentMaps).toOption.map Prod.fst = some true := by
    rw [hentries]
    decide
  rw [← hpass, hrun] at hflag
  obtain rfl : performed = true := Option.some.inj hflag
  obtain ⟨hagain, hsame⟩ := hrest rfl
  obtain rfl := hsame hwords
  exact ⟨maps₂, hrun, hrun', hagain⟩

end Betavita.Loader
