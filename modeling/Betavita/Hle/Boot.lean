import Betavita.Hle.EmulatorMemory
import Betavita.Loader.LoadedImage

/-!
# From the loader to the emulator

The allocator searches a map list that the loader made, with its pages and guard pages in
mind. An image of whole pages, with a free page between any two segments, leaves a list that
it can work with, and none of the blocks it hands out to threads meets the image.
-/

namespace Betavita.Hle

open Memory Processor Transition Loader

/-- Segments that start on a page, with a free page between any two of them. -/
structure GuardedImage (segments : List DecryptedSegment) : Prop where
  load : ∀ s ∈ segments, s.isMapped = true → s.IsLoad
  nonempty : ∀ s ∈ segments, s.isMapped = true → 0 < s.phdr.pMemsz.toNat
  aligned : ∀ s ∈ segments, s.isMapped = true → s.vaddr ≠ 0 ∧ s.vaddr.toNat % 4096 = 0
  guarded : (segments.filter (·.isMapped)).Pairwise fun a b =>
    a.pageEnd.toNat + 0x1001 ≤ b.vaddr.toNat ∨ b.pageEnd.toNat + 0x1001 ≤ a.vaddr.toNat

/-- A map ends on a page. -/
theorem pageEnd_mod (s : DecryptedSegment) : s.pageEnd.toNat % 4096 = 4095 := by
  have hround := Paging.toNat_pageDown (s.phdr.pVaddr + s.phdr.pMemsz + 0xFFF#32)
  unfold DecryptedSegment.pageEnd pageAlignedTopAddressEnd
  rw [BitVec.toNat_sub, hround]
  simp only [BitVec.reduceToNat]
  omega

section Image

variable {segments : List DecryptedSegment} {maps : List MemoryMap}

/-- A segment that is not empty has its first address. -/
theorem GuardedImage.first (h : GuardedImage segments) {s : DecryptedSegment} (hs : s ∈ segments)
    (hm : s.isMapped = true) : s.vaddr ≤ s.pageEnd := by
  have hc := (h.load s hs hm).covers (h.nonempty s hs hm)
  rw [BitVec.add_zero] at hc
  exact hc.2

theorem GuardedImage.apart (h : GuardedImage segments) : ImageApart segments [] where
  load := h.load
  bounded := by
    intro s hs hm x hx
    have hzero := (h.aligned s hs hm).1
    have hle := h.first hs hm
    unfold DecryptedSegment.mapSize
    bv_omega
  pages := by
    refine h.guarded.imp ?_
    rintro a b hab x ⟨halo, hahi⟩ ⟨hblo, hbhi⟩
    have halo' : a.vaddr.toNat ≤ x.toNat := halo
    have hahi' : x.toNat ≤ a.pageEnd.toNat := hahi
    have hblo' : b.vaddr.toNat ≤ x.toNat := hblo
    have hbhi' : x.toNat ≤ b.pageEnd.toNat := hbhi
    omega
  clear := fun _ _ _ _ hit => nomatch hit

/-- A map of the list is that of a segment. -/
theorem placed_segment (h : ImagePlaced segments [] maps) {it : MemoryMap} (hit : it ∈ maps) :
    ∃ s ∈ segments, s.isMapped = true ∧ it.start = s.vaddr ∧ it.end_ = s.pageEnd := by
  have hmem := h.headers.mem_iff.mp (List.mem_map_of_mem (f := MemoryMap.header) hit)
  rw [List.map_nil, List.append_nil] at hmem
  obtain ⟨s, hs, heq⟩ := List.mem_map.mp hmem
  obtain ⟨hs, hm⟩ := List.mem_filter.mp hs
  obtain ⟨hstart, hend, -⟩ := MemoryMap.header_eq heq
  exact ⟨s, hs, hm, hstart.symm, hend.symm⟩

/-- A segment has its map in the list. -/
theorem segment_placed (h : ImagePlaced segments [] maps) {s : DecryptedSegment}
    (hs : s ∈ segments) (hm : s.isMapped = true) : HasMap maps s.map := by
  have hmem : s.map.header ∈ maps.map MemoryMap.header := by
    refine h.headers.mem_iff.mpr (List.mem_append_left _ ?_)
    exact List.mem_map_of_mem (f := (·.map.header)) (List.mem_filter.mpr ⟨hs, hm⟩)
  obtain ⟨it, hit, heq⟩ := List.mem_map.mp hmem
  exact ⟨it, hit, heq⟩

/-- The allocator can work with the maps of the image. -/
theorem placed_allocInv (himage : GuardedImage segments) (h : ImagePlaced segments [] maps) :
    AllocInv maps := by
  have hordered : ∀ it ∈ maps, it.start ≤ it.end_ := by
    intro it hit
    obtain ⟨s, hs, hm, hstart, hend⟩ := placed_segment h hit
    rw [hstart, hend]
    exact himage.first hs hm
  have hsorted := h.sorted List.Pairwise.nil
  -- between any two maps there is a free page, whichever comes first
  have hfree : maps.Pairwise fun a b => a.hi + 0x1001 ≤ b.lo ∨ b.hi + 0x1001 ≤ a.lo := by
    have hheaders := h.headers
    rw [List.map_nil, List.append_nil] at hheaders
    have hguarded : ((segments.filter (·.isMapped)).map (·.map.header)).Pairwise fun a b =>
        a.2.2.1.toNat + 0x1001 ≤ b.2.1.toNat ∨ b.2.2.1.toNat + 0x1001 ≤ a.2.1.toNat :=
      List.pairwise_map.mpr himage.guarded
    exact List.pairwise_map.mp (hheaders.symm.pairwise hguarded fun hab => hab.symm)
  refine ⟨⟨⟨hordered, h.apart⟩, fun it hit => ?_, hsorted⟩, .inr ?_⟩
  · obtain ⟨s, hs, hm, hstart, hend⟩ := placed_segment h hit
    rw [MemoryMap.lo, MemoryMap.hi, hstart, hend]
    exact ⟨(himage.aligned s hs hm).2, pageEnd_mod s⟩
  · refine (hfree.and hsorted).imp_of_mem fun {a b} ha hb hab => ?_
    obtain ⟨hab | hba, hle⟩ := hab
    · exact hab
    · have horda : a.lo ≤ a.hi := hordered a ha
      omega

end Image

/-- The emulator after a load: an image of whole pages, with a free page between any two
segments, is loaded into empty memory. In every run of the emulator over it in which each
allocation finds room, between the calls and in the middle of every slice, the maps of its
segments are still there, and the stack and the TLS block of every started thread are clear
of them. -/
theorem boot_memory {fuel : Nat} {data : SELFProgramData} {maps : List MemoryMap}
    {modules : List RuntimeModule} (himage : GuardedImage data.segments)
    (hload : loadSelfToMemory fuel (some data) ⟨[], []⟩ = .ok (true, ⟨maps, modules⟩))
    {display : Display} {engine : RegisterFile} {calls : List EmuCall} {m : Machine}
    (hrun : Steps (RoomyCall (linkedRuntime modules)) (.fresh display maps engine) calls m) :
    let Isolated := fun m : Machine => MemoryIsolated maps m.hle.kernel m.hle.maps ∧
      ∀ s ∈ data.segments, s.isMapped = true → HasMap m.hle.maps s.map
    Isolated m ∧ ∀ (kernel : Kernel) (t : Thread) (events : List GuestEvent) (m₁ : Machine),
      m.hle.kernel.fetchReadyThread = (kernel, some t) →
      Steps (RoomyStep (linkedRuntime modules)) (m.beginSlice kernel t) events m₁ →
      Isolated m₁ := by
  obtain ⟨placed, hplaced, hsame⟩ := load_maps .nil himage.apart hload
  have halloc : AllocInv maps := (placed_allocInv himage hplaced).sameMaps hsame
  have hsegment : ∀ s ∈ data.segments, s.isMapped = true →
      ∃ it ∈ maps, it.header = s.map.header := by
    intro s hs hm
    exact (segment_placed hplaced hs hm).grown (SameMaps.grown hsame)
  have hkept : ∀ m : Machine, MemoryIsolated maps m.hle.kernel m.hle.maps →
      ∀ s ∈ data.segments, s.isMapped = true → HasMap m.hle.maps s.map := by
    intro m hisolated s hs hm
    obtain ⟨it, hit, heq⟩ := hsegment s hs hm
    obtain ⟨it', hit', heq'⟩ := hisolated.kept it hit
    exact ⟨it', hit', heq'.trans heq⟩
  have h : EmuInv maps m := hrun.invariant (fun _ _ _ hinv hstep => hinv.step hstep) (.fresh halloc)
  refine ⟨⟨h.isolated, hkept m h.isolated⟩, fun kernel t events m₁ hfetch hguest => ?_⟩
  have hslice := h.duringSlice hfetch hguest
  exact ⟨hslice, hkept m₁ hslice⟩

/-- The maps of an image whose segments end below a bound. -/
theorem loaded_low {fuel : Nat} {data : SELFProgramData} {maps : List MemoryMap}
    {modules : List RuntimeModule} (himage : GuardedImage data.segments)
    (hload : loadSelfToMemory fuel (some data) ⟨[], []⟩ = .ok (true, ⟨maps, modules⟩))
    (bound : Nat) (hsome : ∃ s ∈ data.segments, s.isMapped = true)
    (hlow : ∀ s ∈ data.segments, s.isMapped = true → s.pageEnd.toNat < bound) :
    maps ≠ [] ∧ ∀ it ∈ maps, it.hi < bound := by
  obtain ⟨placed, hplaced, hsame⟩ := load_maps .nil himage.apart hload
  constructor
  · obtain ⟨s, hs, hm⟩ := hsome
    obtain ⟨it, hit, -⟩ := (segment_placed hplaced hs hm).grown (SameMaps.grown hsame)
    exact List.ne_nil_of_mem hit
  · intro it hit
    obtain ⟨it', hit', hheader⟩ := hsame.symm.mem hit
    obtain ⟨s, hs, hm, -, hend⟩ := placed_segment hplaced hit'
    rw [MemoryMap.hi, ← (MemoryMap.header_eq hheader).2.1, hend]
    exact hlow s hs hm

/-! ### The entry thread of a small image -/

theorem plainImage_guarded : GuardedImage plainImage.segments where
  load := plainImage_apart.load
  nonempty := by
    intro s hs hm
    rcases List.mem_cons.mp hs with rfl | hs
    · decide
    · cases List.mem_singleton.mp hs
      cases hm
  aligned := by
    intro s hs hm
    rcases List.mem_cons.mp hs with rfl | hs
    · decide
    · cases List.mem_singleton.mp hs
      cases hm
  guarded := List.pairwise_singleton _ _

/-- The page is loaded, and a thread is created and started over it. -/
theorem boot_memory_plain :
    ∃ maps modules m, loadSelfToMemory 1 (some plainImage) ⟨[], []⟩ = .ok (true, ⟨maps, modules⟩) ∧
      Steps (RoomyCall (linkedRuntime modules)) (.fresh noDisplay maps fun _ => 0)
        [.createThread "entry_thread" 0x81000001#32 32 0x2000#32 0 0, .startThread 0x100 0 0] m ∧
      (∃ t, m.hle.kernel.getThread 0x100 = some t ∧ t.Started) ∧
      MemoryIsolated maps m.hle.kernel m.hle.maps ∧
      ∀ s ∈ plainImage.segments, s.isMapped = true → HasMap m.hle.maps s.map := by
  obtain ⟨maps, modules, hload⟩ := plainImage_loads
  obtain ⟨placed, hplaced, hsame⟩ := load_maps .nil plainImage_guarded.apart hload
  have halloc : AllocInv maps := (placed_allocInv plainImage_guarded hplaced).sameMaps hsame
  obtain ⟨hne, hlow⟩ : maps ≠ [] ∧ ∀ it ∈ maps, it.hi < 0xA0000000 := by
    refine loaded_low plainImage_guarded hload 0xA0000000 ⟨_, List.mem_cons_self, rfl⟩ ?_
    intro s hs hm
    rcases List.mem_cons.mp hs with rfl | hs
    · decide
    · cases List.mem_singleton.mp hs
      cases hm
  obtain ⟨m₁, m, hcreate, hstart, hstarted, -⟩ :=
    entry_thread (linkedRuntime modules) halloc hne hlow
  have hrun : Steps (RoomyCall (linkedRuntime modules)) (.fresh noDisplay maps fun _ => 0)
      (([] ++ [.createThread "entry_thread" 0x81000001#32 32 0x2000#32 0 0]) ++
        [.startThread 0x100 0 0]) m := .snoc (.snoc .nil hcreate) hstart
  obtain ⟨hisolated, hkept⟩ := (boot_memory plainImage_guarded hload hrun).1
  exact ⟨maps, modules, m, hload, hrun, hstarted, hisolated, hkept⟩

end Betavita.Hle
