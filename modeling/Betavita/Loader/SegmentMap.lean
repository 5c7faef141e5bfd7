import Betavita.Loader.Elf
import Betavita.Memory.MapOrder

/-!
# self_loader.cpp — mapping the segments

The first loop of `load_self_to_memory`: every loadable segment that is not a relocation
table gets a map up to the end of its last page, and its bytes are copied to its address.
-/

namespace Betavita.Loader

open Memory ByteBuffer Transition

def PHDR_PF_X : Word := 1#32
def PHDR_PF_W : Word := 2#32
def PHDR_PF_R : Word := 4#32

/-- `protection_flags`. -/
def protectionFlags (phdr : ELFPhdr32) : ProtectionType :=
  let flags : ProtectionType := 0
  let flags := if phdr.pFlags &&& PHDR_PF_R ≠ 0 then flags ||| PROTECTION_TYPE_READ else flags
  let flags := if phdr.pFlags &&& PHDR_PF_W ≠ 0 then flags ||| PROTECTION_TYPE_WRITE else flags
  if phdr.pFlags &&& PHDR_PF_X ≠ 0 then flags ||| PROTECTION_TYPE_EXECUTE else flags

/-- `page_aligned_top_address_end`. -/
def pageAlignedTopAddressEnd (phdr : ELFPhdr32) : Word :=
  ((phdr.pVaddr + phdr.pMemsz + 0xFFF#32) &&& ~~~0xFFF#32) - 1#32

/-- `memory::memcpy(i.phdr.p_vaddr, i.data.get(), i.segment_length)`. The size is a
`uint32_t`, and the source is only read when the destination is mapped. -/
def copySegment (maps : List MemoryMap) (i : DecryptedSegment) : Except Trap (List MemoryMap) :=
  match getPointer maps i.phdr.pVaddr with
  | none => .ok maps
  | some data => do
    let src ← bufRead i.data 0 (i.segmentLength % 2 ^ 32)
    writeBytes maps data src

/-- The loop that maps the segments, from the `bottom_address` so far. -/
def mapSegments : List DecryptedSegment → Word → List MemoryMap →
    Except Trap (Word × List MemoryMap)
  | [], bottomAddress, maps => .ok (bottomAddress, maps)
  | i :: rest, bottomAddress, maps =>
    if i.canLoad then
      if !i.relocatable then do
        let bottomAddress :=
          if bottomAddress > i.phdr.pVaddr then i.phdr.pVaddr else bottomAddress
        let maps := mapMemory maps i.name i.phdr.pVaddr (pageAlignedTopAddressEnd i.phdr)
          (protectionFlags i.phdr)
        let maps ← copySegment maps i
        mapSegments rest bottomAddress maps
      else mapSegments rest bottomAddress maps
    else mapSegments rest bottomAddress maps

/-! ## How the map list grows -/

/-- The segments that get a map. -/
def DecryptedSegment.isMapped (i : DecryptedSegment) : Bool := i.canLoad && !i.relocatable

/-- Where the file has the bytes, the copy is that of `memory::memcpy`. -/
theorem copySegment_eq_memcpy {i : DecryptedSegment} {src : List Byte}
    (h : bufRead i.data 0 (i.segmentLength % 2 ^ 32) = .ok src) (maps : List MemoryMap) :
    copySegment maps i = Memory.memcpy maps i.phdr.pVaddr src := by
  unfold copySegment Memory.memcpy
  cases getPointer maps i.phdr.pVaddr with
  | none => rfl
  | some data => simp only [h, ok_bind]

theorem copySegment_sameMaps {maps maps' : List MemoryMap} {i : DecryptedSegment}
    (h : copySegment maps i = .ok maps') : SameMaps maps maps' := by
  unfold copySegment at h
  split at h
  · cases h
    exact .refl _
  · obtain ⟨src, _, h⟩ := bind_ok.mp h
    exact writeBytes_sameMaps h

theorem mapSegments_cons_of_mapped {i : DecryptedSegment} (h : i.isMapped = true)
    (rest : List DecryptedSegment) (bottomAddress : Word) (maps : List MemoryMap) :
    mapSegments (i :: rest) bottomAddress maps =
      (copySegment (mapMemory maps i.name i.phdr.pVaddr (pageAlignedTopAddressEnd i.phdr)
        (protectionFlags i.phdr)) i >>= mapSegments rest
          (if bottomAddress > i.phdr.pVaddr then i.phdr.pVaddr else bottomAddress)) := by
  obtain ⟨hload, hrel⟩ : i.canLoad = true ∧ i.relocatable = false := by
    simpa [DecryptedSegment.isMapped] using h
  rw [mapSegments, if_pos hload, if_pos (by rw [hrel]; rfl)]

theorem mapSegments_cons_of_not_mapped {i : DecryptedSegment} (h : i.isMapped = false)
    (rest : List DecryptedSegment) (bottomAddress : Word) (maps : List MemoryMap) :
    mapSegments (i :: rest) bottomAddress maps = mapSegments rest bottomAddress maps := by
  rw [mapSegments]
  by_cases hload : i.canLoad = true
  · have hrel : i.relocatable = true := by
      simpa [DecryptedSegment.isMapped, hload] using h
    rw [if_pos hload, hrel]
    rfl
  · rw [if_neg hload]

/-- Each mapped segment adds one map. -/
theorem mapSegments_length {segments : List DecryptedSegment} {bottomAddress bottomAddress' : Word}
    {maps maps' : List MemoryMap}
    (h : mapSegments segments bottomAddress maps = .ok (bottomAddress', maps')) :
    maps'.length = maps.length + segments.countP DecryptedSegment.isMapped := by
  induction segments generalizing bottomAddress maps with
  | nil =>
    cases h
    simp
  | cons i rest ih =>
    by_cases hmapped : i.isMapped = true
    · rw [mapSegments_cons_of_mapped hmapped] at h
      obtain ⟨maps₁, hcopy, h⟩ := bind_ok.mp h
      have hlen := (mapMemory_perm maps i.name i.phdr.pVaddr (pageAlignedTopAddressEnd i.phdr)
        (protectionFlags i.phdr)).length_eq
      rw [List.length_cons] at hlen
      rw [ih h, ← (copySegment_sameMaps hcopy).length, hlen, List.countP_cons_of_pos hmapped]
      omega
    · rw [mapSegments_cons_of_not_mapped (Bool.eq_false_of_not_eq_true hmapped)] at h
      rw [ih h, List.countP_cons_of_neg hmapped]

/-- Without a mapped segment the loop does nothing. -/
theorem mapSegments_of_none {segments : List DecryptedSegment}
    (h : ∀ i ∈ segments, i.isMapped = false) (bottomAddress : Word) (maps : List MemoryMap) :
    mapSegments segments bottomAddress maps = .ok (bottomAddress, maps) := by
  induction segments with
  | nil => rfl
  | cons i rest ih =>
    rw [mapSegments_cons_of_not_mapped (h i List.mem_cons_self)]
    exact ih fun j hj => h j (List.mem_cons_of_mem _ hj)

/-! ## The loop with any outcome of the sort -/

/-- The call of `map_memory` for the segment. -/
def DecryptedSegment.request (i : DecryptedSegment) : MapRequest :=
  ⟨i.name, i.phdr.pVaddr, pageAlignedTopAddressEnd i.phdr, protectionFlags i.phdr⟩

/-- One round of the loop, with any outcome of the sort at the end of `map_memory`. -/
def MapsSegment (maps : List MemoryMap) (i : DecryptedSegment) (maps' : List MemoryMap) : Prop :=
  if i.isMapped then ∃ maps₁, MapsTo maps i.request maps₁ ∧ copySegment maps₁ i = .ok maps'
  else maps' = maps

section Outcomes

variable {segments : List DecryptedSegment} {bottomAddress bottomAddress' : Word}
  {maps maps' : List MemoryMap} {i : DecryptedSegment}

theorem mapsSegment_of_mapped (h : i.isMapped = true) :
    MapsSegment maps i maps' ↔
      ∃ maps₁, MapsTo maps i.request maps₁ ∧ copySegment maps₁ i = .ok maps' := by
  rw [MapsSegment, if_pos h]

theorem mapsSegment_of_not_mapped (h : i.isMapped = false) :
    MapsSegment maps i maps' ↔ maps' = maps := by
  rw [MapsSegment, h, if_neg Bool.false_ne_true]

/-- The loop with a stable sort is one of its runs. -/
theorem mapSegments_run
    (h : mapSegments segments bottomAddress maps = .ok (bottomAddress', maps')) :
    Steps MapsSegment maps segments maps' := by
  induction segments generalizing bottomAddress maps with
  | nil =>
    cases h
    exact .nil
  | cons i rest ih =>
    by_cases hmapped : i.isMapped = true
    · rw [mapSegments_cons_of_mapped hmapped] at h
      obtain ⟨maps₁, hcopy, h⟩ := bind_ok.mp h
      have hround := (mapsSegment_of_mapped hmapped).mpr
        ⟨_, mapMemory_mapsTo maps i.request, hcopy⟩
      exact Steps.cons_iff.mpr ⟨maps₁, hround, ih h⟩
    · rw [Bool.not_eq_true] at hmapped
      rw [mapSegments_cons_of_not_mapped hmapped] at h
      exact Steps.cons_iff.mpr ⟨maps, (mapsSegment_of_not_mapped hmapped).mpr rfl, ih h⟩

/-- The maps that the loop makes, before any byte is copied. -/
def mapsOfSegments (segments : List DecryptedSegment) : List MemoryMap :=
  (segments.filter DecryptedSegment.isMapped).map fun i => i.request.map

/-- Where no two of the maps share a page, the order of the sort is no matter: the loop with a
stable sort is the only run. -/
theorem mapSegments_of_run (hlaid : Laid (maps ++ mapsOfSegments segments))
    (h : Steps MapsSegment maps segments maps') :
    ∃ bottomAddress', mapSegments segments bottomAddress maps = .ok (bottomAddress', maps') := by
  induction segments generalizing bottomAddress maps with
  | nil =>
    obtain rfl := Steps.nil_iff.mp h
    exact ⟨bottomAddress, rfl⟩
  | cons i rest ih =>
    obtain ⟨maps₂, hround, hrest⟩ := Steps.cons_iff.mp h
    by_cases hmapped : i.isMapped = true
    · obtain ⟨maps₁, hto, hcopy⟩ := (mapsSegment_of_mapped hmapped).mp hround
      have hsplit : mapsOfSegments (i :: rest) = i.request.map :: mapsOfSegments rest := by
        rw [mapsOfSegments, List.filter_cons_of_pos hmapped]
        rfl
      rw [hsplit] at hlaid
      have hmaps : Laid maps :=
        ⟨fun m hm => hlaid.ordered m (List.mem_append_left _ hm),
          (List.pairwise_append.mp hlaid.apart).1⟩
      have hfront := hlaid.of_perm List.perm_middle
      have hapart := (List.pairwise_cons.mp hfront.apart).1
      obtain rfl := hto.eq_mapMemory hmaps (hfront.ordered _ List.mem_cons_self)
        fun m hm => hapart m (List.mem_append_left _ hm)
      -- the maps after the round are those before it and the new one
      have hnext : Laid (maps₂ ++ mapsOfSegments rest) := by
        rw [List.append_cons] at hlaid
        have hsame := copySegment_sameMaps hcopy
        refine SameMaps.laid ?_ (hlaid.of_perm (hto.perm.symm.append_right _))
        rw [SameMaps, List.map_append, List.map_append, hsame]
      obtain ⟨bottomAddress', hok⟩ := ih hnext hrest
      refine ⟨bottomAddress', ?_⟩
      rw [mapSegments_cons_of_mapped hmapped]
      exact bind_ok.mpr ⟨maps₂, hcopy, hok⟩
    · rw [Bool.not_eq_true] at hmapped
      obtain rfl := (mapsSegment_of_not_mapped hmapped).mp hround
      rw [mapSegments_cons_of_not_mapped hmapped]
      refine ih ?_ hrest
      have hnot : ¬ i.isMapped = true := by
        rw [hmapped]
        exact Bool.false_ne_true
      rwa [mapsOfSegments, List.filter_cons_of_neg hnot] at hlaid

end Outcomes

/-! ## The bottom address -/

/-- No mapped segment lies below the address, and one lies at it; without a mapped segment it is
the last address. -/
structure IsBottom (segments : List DecryptedSegment) (address : Word) : Prop where
  le : ∀ i ∈ segments, i.isMapped = true → address ≤ i.phdr.pVaddr
  attained : address = 0xFFFFFFFF#32 ∨
    ∃ i ∈ segments, i.isMapped = true ∧ i.phdr.pVaddr = address

theorem IsBottom.unique {segments : List DecryptedSegment} {a b : Word}
    (ha : IsBottom segments a) (hb : IsBottom segments b) : a = b := by
  have hle : ∀ {a b}, IsBottom segments a → IsBottom segments b → a ≤ b := by
    intro a b ha hb
    rcases hb.attained with rfl | ⟨i, hi, him, rfl⟩
    · bv_omega
    · exact ha.le i hi him
  have hab := hle ha hb
  have hba := hle hb ha
  bv_omega

end Betavita.Loader
