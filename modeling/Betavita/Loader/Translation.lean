import Betavita.Hle.MemoryManager
import Betavita.Lib.Transition
import Betavita.Loader.SegmentMap

/-!
# self_loader.cpp, memory_manager.cpp — the maps that are built

`map_memory` is called for the segments of an image and for stacks and heaps. The size of
a map is that of its range modulo `2 ^ 32`, so one range is covered but has no bytes: the
whole address space. Only a segment can ask for it, at address `0` with an end that wraps.
-/

namespace Betavita.Loader

open Memory Hle Transition

/-- A call of `map_memory`: for a segment, or by one of the allocators. -/
inductive MapCall
  | segment (i : DecryptedSegment)
  | stack (size : Word) (name : String)
  | heap (size : Word) (name : String)

def MapCall.perform (maps : List MemoryMap) : MapCall → List MemoryMap
  | .segment i => mapMemory maps i.name i.phdr.pVaddr (pageAlignedTopAddressEnd i.phdr)
      (protectionFlags i.phdr)
  | .stack size name => (allocateStack maps size name).1
  | .heap size name => (allocateHeap maps size name).1

/-- One call, and whatever is then stored in the maps. -/
def MapStep (ok : MapCall → Prop) (maps : List MemoryMap) (c : MapCall) (maps' : List MemoryMap) :
    Prop := ok c ∧ SameMaps (c.perform maps) maps'

/-- A pointer that is translated points at a byte of its map. -/
def TranslationInBuffer (maps : List MemoryMap) : Prop :=
  ∀ address p, getPointerUnchecked maps address = some p →
    ∃ it, maps[p.map]? = some it ∧ p.offset = (address - it.start).toNat ∧
      p.offset < it.data.length

/-- No map is the whole address space. -/
def NoWholeSpace (maps : List MemoryMap) : Prop :=
  ∀ it ∈ maps, ¬ (it.start = 0 ∧ it.end_ = 0xFFFFFFFF#32)

/-- The segment does not begin at address `0`, or it has a size whose last page is neither
before the first address nor the last page of the address space. -/
def MapCall.Bounded : MapCall → Prop
  | .segment i => i.phdr.pVaddr = 0 → i.phdr.pMemsz ≠ 0 ∧ i.phdr.pMemsz < 0xFFFFF001#32
  | _ => True

theorem NoWholeSpace.translationInBuffer {maps : List MemoryMap} (h : NoWholeSpace maps) :
    TranslationInBuffer maps := by
  intro address p hp
  obtain ⟨it, hit, ⟨hlo, hhi⟩, hoff, _⟩ := getPointerUnchecked_eq_some.mp hp
  have hord : it.start ≤ it.end_ := BitVec.le_trans hlo hhi
  have hnot := h it (List.mem_of_getElem? hit)
  have hsize : it.size ≠ 0 := fun hz => hnot ((MemoryMap.size_eq_zero_iff hord).mp hz)
  have hle : address.toNat + 1 ≤ it.end_.toNat + 1 := Nat.succ_le_succ hhi
  have hfit := MemoryMap.range_le_data_length Nat.one_pos hlo hle hsize
  refine ⟨it, hit, hoff, ?_⟩
  rw [hoff]
  exact hfit

/-! ## The calls keep it so -/

theorem NoWholeSpace.mapMemory {maps : List MemoryMap} (h : NoWholeSpace maps) {name : String}
    {start end_ : Word} {protection : ProtectionType}
    (hnew : ¬ (start = 0 ∧ end_ = 0xFFFFFFFF#32)) :
    NoWholeSpace (mapMemory maps name start end_ protection) := by
  intro it hit
  rcases List.mem_cons.mp ((mapMemory_perm ..).mem_iff.mp hit) with rfl | hold
  · exact hnew
  · exact h it hold

theorem NoWholeSpace.congr {maps maps' : List MemoryMap} (h : NoWholeSpace maps)
    (hsame : SameMaps maps maps') : NoWholeSpace maps' := by
  intro it hit
  obtain ⟨i, hi, rfl⟩ := List.getElem_of_mem hit
  obtain ⟨it', hit', he⟩ := hsame.symm.getElem? (List.getElem?_eq_getElem hi)
  obtain ⟨hs, he', _⟩ := MemoryMap.header_eq he
  rw [hs, he']
  exact h it' (List.mem_of_getElem? hit')

/-- At address `0` the last page ends with the address space when the size rounds to `0`. -/
theorem pageAlignedTopAddressEnd_eq_top {phdr : ELFPhdr32} (h : phdr.pVaddr = 0) :
    pageAlignedTopAddressEnd phdr = 0xFFFFFFFF#32 ↔
      phdr.pMemsz = 0 ∨ 0xFFFFF001#32 ≤ phdr.pMemsz := by
  have hround := Paging.toNat_pageDown (phdr.pMemsz + 0xFFF#32)
  have hend : pageAlignedTopAddressEnd phdr =
      ((phdr.pMemsz + 0xFFF#32) &&& ~~~0xFFF#32) - 1#32 := by
    rw [pageAlignedTopAddressEnd, h, BitVec.ofNat_eq_ofNat, BitVec.zero_add]
  rw [hend]
  generalize (phdr.pMemsz + 0xFFF#32) &&& ~~~0xFFF#32 = rounded at hround ⊢
  constructor
  · intro htop
    have hzero : rounded.toNat = 0 := by bv_omega
    bv_omega
  · intro hsize
    have hzero : rounded = 0 := by bv_omega
    rw [hzero]
    rfl

/-- The allocators never place a block at address `0`. -/
theorem moreMemory_ne_zero (maps : List MemoryMap) (size : Word) :
    (moreMemory maps size).1 ≠ 0 := by
  unfold moreMemory
  split
  · show 0x60000000#32 ≠ 0
    decide
  · simp only
    split
    · rename_i htop
      exact htop
    · decide

theorem NoWholeSpace.perform {maps : List MemoryMap} (h : NoWholeSpace maps) {c : MapCall}
    (hc : c.Bounded) : NoWholeSpace (c.perform maps) := by
  cases c with
  | segment i =>
    refine h.mapMemory fun hwhole => ?_
    obtain ⟨hne, hlt⟩ := hc hwhole.1
    rcases (pageAlignedTopAddressEnd_eq_top hwhole.1).mp hwhole.2 with hzero | hge
    · exact hne hzero
    · exact absurd hlt (BitVec.not_lt.mpr hge)
  | stack size name =>
    have hne := moreMemory_ne_zero maps size
    simp only [MapCall.perform, allocateStack]
    split
    · exact h
    · exact h.mapMemory fun hwhole => hne hwhole.1
  | heap size name =>
    have hne := moreMemory_ne_zero maps size
    simp only [MapCall.perform, allocateHeap]
    split
    · exact h
    · exact h.mapMemory fun hwhole => hne hwhole.1

/-- The loop that maps the segments of an image is a run of such calls. -/
theorem mapSegments_steps {ok : MapCall → Prop} {segments : List DecryptedSegment}
    {bottomAddress bottomAddress' : Word} {maps maps' : List MemoryMap}
    (hok : ∀ i ∈ segments, i.isMapped → ok (.segment i))
    (h : mapSegments segments bottomAddress maps = .ok (bottomAddress', maps')) :
    Steps (MapStep ok) maps ((segments.filter (·.isMapped)).map .segment) maps' := by
  induction segments generalizing bottomAddress maps with
  | nil =>
    cases h
    exact .nil
  | cons i rest ih =>
    have hrest := fun j hj => hok j (List.mem_cons_of_mem i hj)
    by_cases hmapped : i.isMapped = true
    · rw [mapSegments_cons_of_mapped hmapped] at h
      obtain ⟨maps₁, hcopy, h⟩ := bind_ok.mp h
      have hstep : MapStep ok maps (.segment i) maps₁ :=
        ⟨hok i List.mem_cons_self hmapped, copySegment_sameMaps hcopy⟩
      rw [List.filter_cons_of_pos hmapped]
      exact (Steps.snoc .nil hstep).append (ih hrest h)
    · rw [mapSegments_cons_of_not_mapped (Bool.eq_false_of_not_eq_true hmapped)] at h
      rw [List.filter_cons_of_neg hmapped]
      exact ih hrest h

theorem Steps.noWholeSpace {calls : List MapCall} {maps maps' : List MemoryMap}
    (hrun : Steps (MapStep MapCall.Bounded) maps calls maps') (h : NoWholeSpace maps) :
    NoWholeSpace maps' :=
  hrun.invariant (fun _ _ _ h hstep => (h.perform hstep.1).congr hstep.2) h

/-- So does loading such segments. -/
theorem mapSegments_translationInBuffer {segments : List DecryptedSegment}
    {bottomAddress bottomAddress' : Word} {maps maps' : List MemoryMap}
    (hbounded : ∀ i ∈ segments, i.isMapped → (MapCall.segment i).Bounded)
    (h : mapSegments segments bottomAddress maps = .ok (bottomAddress', maps'))
    (hmaps : NoWholeSpace maps) : TranslationInBuffer maps' :=
  (Steps.noWholeSpace (mapSegments_steps hbounded h) hmaps).translationInBuffer

/-- In every run without a segment at `0` whose end wraps, each address that is translated
has its byte. -/
theorem translation_in_buffer {calls : List MapCall} {maps : List MemoryMap}
    (hrun : Steps (MapStep MapCall.Bounded) [] calls maps) : TranslationInBuffer maps :=
  (Steps.noWholeSpace hrun (by simp [NoWholeSpace])).translationInBuffer

/-- A segment with `size` bytes at `address`. -/
def segmentAt (address size : Word) : DecryptedSegment :=
  ⟨"program_segment_0", [], 0, false, true,
    { ELFPhdr32.zero with pType := PT_LOAD, pVaddr := address, pMemsz := size }⟩

theorem translation_in_buffer_stack :
    TranslationInBuffer ((MapCall.stack 0x1000#32 "main").perform
      ((MapCall.segment (segmentAt 0 1)).perform [])) := by
  have hsegment : (MapCall.segment (segmentAt 0 1)).Bounded := fun _ => by decide
  have hstack : (MapCall.stack 0x1000#32 "main").Bounded := trivial
  exact translation_in_buffer (.snoc (.snoc .nil ⟨hsegment, .refl _⟩) ⟨hstack, .refl _⟩)

/-- An empty segment at `0` gets the whole address space, and no bytes. -/
theorem empty_segment_leaves_buffer :
    ¬ ∀ calls maps, Steps (MapStep fun _ => True) [] calls maps → TranslationInBuffer maps := by
  intro h
  have hrun : Steps (MapStep fun _ => True) [] [.segment (segmentAt 0 0)]
      ((MapCall.segment (segmentAt 0 0)).perform []) := .snoc .nil ⟨trivial, .refl _⟩
  obtain ⟨it, hit, _, hlt⟩ := h _ _ hrun 0 ⟨0, 0⟩ (by decide)
  cases hit
  exact absurd hlt (by decide)

end Betavita.Loader
