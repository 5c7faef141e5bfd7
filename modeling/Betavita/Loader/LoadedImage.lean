import Betavita.Loader.ImportLinking
import Betavita.Loader.Load
import Betavita.Loader.Placement
import Betavita.Loader.RelocationOrder
import Betavita.Memory.Store

/-!
# A loaded image, as the guest sees it

Loading on a byte store: the segments are put in place, the words of the relocation entries
are patched in the order of the tables, and the stubs of the imports are written. The loader
does this through host pointers, into maps that it sorts again with every segment. Where no
two segments share a page, what the guest finds afterwards is the result on the store.
-/

namespace Betavita.Loader

open Memory Hle ByteBuffer ByteStore

/-! ## Loading on a byte store -/

/-- A segment that is mapped: zeros up to the end of its last page, and the bytes of the
file at its start. -/
noncomputable def DecryptedSegment.place (mem : Store 32 Byte) (s : DecryptedSegment) :
    Store 32 Byte :=
  if s.isMapped then
    (mem.fill {x | s.Covers x} 0).overwrite s.vaddr (slice s.data 0 s.segmentLength)
  else mem

/-- The word at an address. -/
def wordAt (mem : Store 32 Byte) (a : Word) : Word :=
  BitVec.ofNat 32 (decode ((List.range 4).map fun i => (mem (a + BitVec.ofNat 32 i)).getD 0))

/-- One relocation: the word at its place is patched. -/
def Patch.store (mem : Store 32 Byte) (c : Patch) : Store 32 Byte :=
  mem.overwrite c.P
    (encode 4 (patchedWord c.relocationType c.S c.A c.P (wordAt mem c.P)).toNat)

/-- The image before its imports are linked. -/
noncomputable def SELFProgramData.relocated (data : SELFProgramData) (mem : Store 32 Byte) :
    Store 32 Byte :=
  (tablePatches data.segments 4#32 data.entries).foldl Patch.store
    (data.segments.foldl DecryptedSegment.place mem)

/-- The stubs of a module: where they are and what they hold. -/
def moduleStubs (mod : RuntimeModule) : List (Word × List Byte) :=
  (mod.functionImportLibraries.flatMap (·.functionImports)).map fun f =>
    (f.entryAddress, stubBytes f.nid)

/-! ## Placing the segments -/

/-- Segments on pages of their own, that meet no map. -/
structure ImageApart (segments : List DecryptedSegment) (maps : List MemoryMap) : Prop where
  load : ∀ s ∈ segments, s.isMapped = true → s.IsLoad
  bounded : ∀ s ∈ segments, s.isMapped = true → ∀ x, s.Covers x → s.mapSize ≠ 0
  pages : (segments.filter (·.isMapped)).Pairwise fun a b => ∀ x, a.Covers x → ¬ b.Covers x
  clear : ∀ s ∈ segments, s.isMapped = true → ∀ it ∈ maps, ∀ x, s.Covers x → ¬ it.Covers x

/-- The map of a segment. -/
def DecryptedSegment.map (s : DecryptedSegment) : MemoryMap :=
  .fresh s.name s.vaddr s.pageEnd (protectionFlags s.phdr)

theorem DecryptedSegment.size_ne_zero {s : DecryptedSegment} (h : s.mapSize ≠ 0) :
    s.map.size ≠ 0 := by
  intro hz
  have hsize : s.pageEnd - s.vaddr + 1 = 0 := hz
  exact h (congrArg BitVec.toNat hsize)

/-- The list is in the order of the end addresses. -/
def Sorted (maps : List MemoryMap) : Prop := maps.Pairwise fun a b => a.hi ≤ b.hi

/-- The maps after the loop: those that were there and one for each segment, without
overlaps, and the segments in place. -/
structure ImagePlaced (segments : List DecryptedSegment) (maps maps' : List MemoryMap) : Prop where
  apart : maps'.Pairwise MemoryMap.Apart
  sorted : Sorted maps → Sorted maps'
  headers : (maps'.map MemoryMap.header).Perm
    ((segments.filter (·.isMapped)).map (·.map.header) ++ maps.map MemoryMap.header)
  bytes : loadByte maps' = segments.foldl DecryptedSegment.place (loadByte maps)

section Placing

variable {maps maps' : List MemoryMap} {s : DecryptedSegment} {segments : List DecryptedSegment}

/-- The copy of a segment whose map is in the list stays inside that map. -/
theorem copySegment_store (hload : s.IsLoad) (hsize : ∀ x, s.Covers x → s.mapSize ≠ 0)
    (hapart : maps.Pairwise MemoryMap.Apart) (hmem : s.map ∈ maps) :
    ∃ maps', copySegment maps s = .ok maps' ∧
      loadByte maps' =
        Store.overwrite (loadByte maps) s.vaddr (slice s.data 0 s.segmentLength) := by
  have hlen : (slice s.data 0 s.segmentLength).length = s.segmentLength := by
    have hbuffer := hload.buffer
    exact slice_length (by omega)
  rcases Nat.eq_zero_or_pos s.segmentLength with hzero | hpos
  · -- nothing to copy
    have hnil : slice s.data 0 s.segmentLength = [] :=
      List.length_eq_zero_iff.mp (hlen.trans hzero)
    rw [copySegment, hload.src, hnil]
    cases hp : getPointer maps s.phdr.pVaddr with
    | none => exact ⟨maps, rfl, by rw [Store.overwrite_nil]⟩
    | some p =>
      obtain ⟨it, hit, -⟩ := getPointerUnchecked_eq_some.mp hp
      obtain ⟨maps', hwrite⟩ :=
        writeBytes_isOk_iff.mpr (⟨it, hit, .inl rfl⟩ : InBuffer maps p ([] : List Byte).length)
      exact ⟨maps', hwrite, loadByte_overwrite hapart hp hwrite⟩
  · obtain ⟨i, hi, hget⟩ := List.getElem_of_mem hmem
    have hit : maps[i]? = some s.map := by rw [List.getElem?_eq_getElem hi, hget]
    have hfirst : s.Covers s.vaddr := by
      have hc := hload.covers (hload.lt_memsz (k := 0) hpos)
      rwa [BitVec.add_zero] at hc
    have hp : getPointer maps s.phdr.pVaddr = some ⟨i, (s.vaddr - s.map.start).toNat⟩ :=
      getPointerUnchecked_of_apart hapart hit hfirst
    have hfits : (s.vaddr - s.map.start).toNat + s.segmentLength ≤ s.map.data.length := by
      have hlast := hload.lt_memsz (k := s.segmentLength - 1) (by omega)
      have hend : (s.vaddr + BitVec.ofNat 32 (s.segmentLength - 1)).toNat ≤ s.pageEnd.toNat :=
        (hload.covers hlast).2
      rw [hload.toNat_add hlast] at hend
      refine MemoryMap.range_le_data_length hpos (BitVec.le_refl _) ?_
        (DecryptedSegment.size_ne_zero (hsize _ hfirst))
      show s.vaddr.toNat + s.segmentLength ≤ s.pageEnd.toNat + 1
      omega
    obtain ⟨maps', hwrite⟩ := writeBytes_isOk_iff.mpr
      (⟨s.map, hit, .inr (hlen.symm ▸ hfits)⟩ : InBuffer maps ⟨i, (s.vaddr - s.map.start).toNat⟩
        (slice s.data 0 s.segmentLength).length)
    refine ⟨maps', ?_, loadByte_overwrite hapart hp hwrite⟩
    rw [copySegment, hp, hload.src]
    exact hwrite

theorem ImagePlaced.cons {maps₁ : List MemoryMap} (h : ImagePlaced [s] maps maps₁)
    (hrest : ImagePlaced segments maps₁ maps') : ImagePlaced (s :: segments) maps maps' where
  apart := hrest.apart
  sorted hsorted := hrest.sorted (h.sorted hsorted)
  headers := by
    have hsplit : (s :: segments).filter (·.isMapped) =
        [s].filter (·.isMapped) ++ segments.filter (·.isMapped) := by
      rw [← List.filter_append]
      rfl
    rw [hsplit, List.map_append]
    refine hrest.headers.trans ((h.headers.append_left _).trans ?_)
    rw [← List.append_assoc]
    exact List.perm_append_comm.append_right _
  bytes := by
    rw [hrest.bytes, h.bytes]
    rfl

/-- A segment with a map of its own: the map is added and the content copied there, and the
segments behind it stay clear of what is mapped then. -/
theorem ImageApart.place (himage : ImageApart (s :: segments) maps)
    (hapart : maps.Pairwise MemoryMap.Apart) (hmapped : s.isMapped = true) :
    ∃ maps₁, copySegment (mapMemory maps s.name s.vaddr s.pageEnd (protectionFlags s.phdr)) s =
        .ok maps₁ ∧ ImagePlaced [s] maps maps₁ ∧ ImageApart segments maps₁ := by
  have hsize := himage.bounded s List.mem_cons_self hmapped
  have hperm : (mapMemory maps s.name s.vaddr s.pageEnd (protectionFlags s.phdr)).Perm
      (s.map :: maps) := mapMemory_perm ..
  have hapart₁ : (mapMemory maps s.name s.vaddr s.pageEnd
      (protectionFlags s.phdr)).Pairwise MemoryMap.Apart := by
    have hnew : ∀ it ∈ maps, s.map.Apart it := fun it hit =>
      MemoryMap.apart_of_not_covers (himage.clear s List.mem_cons_self hmapped it hit)
    exact hperm.symm.pairwise (List.pairwise_cons.mpr ⟨hnew, hapart⟩) fun h => h.symm
  obtain ⟨maps₁, hcopy, hbytes⟩ :=
    copySegment_store (himage.load s List.mem_cons_self hmapped) hsize hapart₁
      (hperm.mem_iff.mpr List.mem_cons_self)
  have hsame := copySegment_sameMaps hcopy
  have hfilter : [s].filter (·.isMapped) = [s] := by simp [hmapped]
  have hplaced : ImagePlaced [s] maps maps₁ := by
    refine ⟨hsame.apart hapart₁, fun _ => ?_, ?_, ?_⟩
    · exact hsame.pairwise (R := fun a b => a.2.2.1.toNat ≤ b.2.2.1.toNat) (mapMemory_sorted ..)
    · rw [hfilter, show maps₁.map MemoryMap.header = _ from hsame.symm]
      exact hperm.map _
    · rw [hbytes, loadByte_mapMemory hapart₁ fun x hx =>
        DecryptedSegment.size_ne_zero (hsize x hx), List.foldl_cons, List.foldl_nil,
        DecryptedSegment.place, if_pos hmapped]
      rfl
  refine ⟨maps₁, hcopy, hplaced, fun t ht => himage.load t (List.mem_cons_of_mem _ ht),
    fun t ht => himage.bounded t (List.mem_cons_of_mem _ ht), ?_, fun t ht htm it' hit' x htx => ?_⟩
  · have hpages := himage.pages
    rw [List.filter_cons_of_pos hmapped] at hpages
    exact hpages.of_cons
  · have hpages := himage.pages
    rw [List.filter_cons_of_pos hmapped, List.pairwise_cons] at hpages
    obtain ⟨it, hit, hheader⟩ := hsame.symm.mem hit'
    obtain ⟨hs, he, -⟩ := MemoryMap.header_eq hheader
    rw [MemoryMap.Covers, ← hs, ← he]
    rcases List.mem_cons.mp (hperm.mem_iff.mp hit) with rfl | hit
    · intro hc
      exact hpages.1 t (List.mem_filter.mpr ⟨ht, htm⟩) x hc htx
    · exact himage.clear t (List.mem_cons_of_mem _ ht) htm it hit x htx

/-- A segment without a map is passed over. -/
theorem ImageApart.skip (himage : ImageApart (s :: segments) maps)
    (hapart : maps.Pairwise MemoryMap.Apart) (hunmapped : ¬ s.isMapped = true) :
    ImagePlaced [s] maps maps ∧ ImageApart segments maps := by
  constructor
  · refine ⟨hapart, id, ?_, ?_⟩
    · rw [List.filter_cons_of_neg hunmapped]
      exact .refl _
    · rw [List.foldl_cons, List.foldl_nil, DecryptedSegment.place, if_neg hunmapped]
  · have hpages := himage.pages
    rw [List.filter_cons_of_neg hunmapped] at hpages
    exact ⟨fun t ht => himage.load t (List.mem_cons_of_mem _ ht),
      fun t ht => himage.bounded t (List.mem_cons_of_mem _ ht), hpages,
      fun t ht => himage.clear t (List.mem_cons_of_mem _ ht)⟩

/-- The loop maps the segments and puts them in place. -/
theorem mapSegments_store (himage : ImageApart segments maps)
    (hapart : maps.Pairwise MemoryMap.Apart) (bottomAddress : Word) :
    ∃ bottomAddress' maps', mapSegments segments bottomAddress maps = .ok (bottomAddress', maps') ∧
      ImagePlaced segments maps maps' := by
  induction segments generalizing bottomAddress maps with
  | nil => exact ⟨bottomAddress, maps, rfl, hapart, id, .refl _, rfl⟩
  | cons s rest ih =>
    by_cases hmapped : s.isMapped = true
    · obtain ⟨maps₁, hcopy, hfirst, hrest⟩ := himage.place hapart hmapped
      obtain ⟨bottomAddress', maps', hrun, hplaced⟩ := ih hrest hfirst.apart
        (if bottomAddress > s.phdr.pVaddr then s.phdr.pVaddr else bottomAddress)
      refine ⟨bottomAddress', maps', ?_, hfirst.cons hplaced⟩
      rw [mapSegments_cons_of_mapped hmapped]
      exact (congrArg (· >>= _) hcopy).trans hrun
    · obtain ⟨hfirst, hrest⟩ := himage.skip hapart hmapped
      obtain ⟨bottomAddress', maps', hrun, hplaced⟩ := ih hrest hapart bottomAddress
      refine ⟨bottomAddress', maps', ?_, hfirst.cons hplaced⟩
      rw [mapSegments_cons_of_not_mapped (Bool.eq_false_of_not_eq_true hmapped)]
      exact hrun

end Placing

/-! ## Relocating -/

section Relocating

variable {maps maps' : List MemoryMap} {segments : List DecryptedSegment} {scale : Word}

theorem wordAt_of_readWord (hapart : maps.Pairwise MemoryMap.Apart) {a w : Word} {p : HostPtr}
    (hp : getPointerUnchecked maps a = some p) (hread : readWord maps p = .ok w) :
    wordAt (loadByte maps) a = w := by
  obtain ⟨bytes, hbytes, hw⟩ := bind_ok.mp hread
  cases hw
  have hlen := readBytes_length hbytes
  refine congrArg (fun bs => BitVec.ofNat 32 (decode bs)) (List.ext_getElem (by simp [hlen]) ?_)
  intro i hi hi'
  have hi4 : i < 4 := by omega
  have hbyte := loadByte_add hapart hp (readBytes_isOk_iff.mp ⟨bytes, hbytes⟩) hi4
  rw [← readBytes_getElem? hbytes hi4, List.getElem?_eq_getElem hi'] at hbyte
  simp [hbyte]

/-- An accepted relocation is that of the store. -/
theorem applyOneRelocation_store (hapart : maps.Pairwise MemoryMap.Apart) {relocationType : Byte}
    {S A P : Word} (h : applyOneRelocation maps relocationType S A P = .ok (true, maps')) :
    loadByte maps' = (Patch.mk relocationType S A P).store (loadByte maps) := by
  obtain ⟨p, old, hp, hread, hwrite⟩ := applyOneRelocation_true h
  rw [Patch.store, wordAt_of_readWord hapart hp hread]
  exact loadByte_overwrite hapart hp hwrite

theorem patchEntry_store (hapart : maps.Pairwise MemoryMap.Apart) {e : EntryFormat0}
    (h : patchEntry segments scale e maps = .ok (true, maps')) :
    loadByte maps' = (entryPatches segments scale e).foldl Patch.store (loadByte maps) := by
  by_cases hcode2 : e.code2 = 0
  · obtain ⟨⟨applied, maps₁⟩, hfirst, h⟩ := bind_ok.mp h
    simp only [hcode2, ne_eq, not_true_eq_false, and_false, if_false] at h
    cases h
    simp only [entryPatches, hcode2, ne_eq, not_true_eq_false, if_false, List.foldl_cons,
      List.foldl_nil]
    exact applyOneRelocation_store hapart hfirst
  · obtain ⟨maps₁, hfirst, hsecond⟩ := patchEntry_both hcode2 h
    simp only [entryPatches, hcode2, ne_eq, not_false_eq_true, if_true, List.foldl_cons,
      List.foldl_nil]
    rw [← applyOneRelocation_store hapart hfirst]
    exact applyOneRelocation_store ((applyOneRelocation_sameMaps hfirst).apart hapart) hsecond

/-- A run over entries that succeeds patches the store in their order. -/
theorem runEntries_store (hapart : maps.Pairwise MemoryMap.Apart) {es : List EntryFormat0}
    (h : runEntries segments scale es maps = .ok (true, maps')) :
    loadByte maps' = (tablePatches segments scale es).foldl Patch.store (loadByte maps) := by
  induction es generalizing maps with
  | nil =>
    cases h
    rfl
  | cons e es ih =>
    obtain ⟨⟨applied, maps₁⟩, hentry, h⟩ := bind_ok.mp h
    cases applied with
    | false => cases h
    | true =>
      have hpatches : tablePatches segments scale (e :: es) =
          entryPatches segments scale e ++ tablePatches segments scale es := rfl
      rw [hpatches, List.foldl_append, ← patchEntry_store hapart hentry]
      exact ih ((patchEntry_sameMaps hentry).apart hapart) h

end Relocating

/-! ## Linking -/

section Linking

variable {maps maps' : List MemoryMap} {t : ImportTable}

theorem mem_moduleStubs {mod : RuntimeModule} {s : Word × List Byte} :
    s ∈ moduleStubs mod ↔ ∃ library ∈ mod.functionImportLibraries,
      ∃ f ∈ library.functionImports, s = (f.entryAddress, stubBytes f.nid) := by
  simp only [moduleStubs, List.mem_map, List.mem_flatMap]
  constructor
  · rintro ⟨f, ⟨library, hlibrary, hf⟩, rfl⟩
    exact ⟨library, hlibrary, f, hf, rfl⟩
  · rintro ⟨library, hlibrary, f, hf, rfl⟩
    exact ⟨f, ⟨library, hlibrary, hf⟩, rfl⟩

/-- An address that a stub reaches is one of its twelve. -/
theorem Reaches.stub {f : FunctionImport} {x : Word}
    (h : Reaches (f.entryAddress, stubBytes f.nid) x) :
    ∃ k < 12, x = f.entryAddress + BitVec.ofNat 32 k ∧ (x - f.entryAddress).toNat = k := by
  unfold Reaches at h
  rw [stubBytes_length] at h
  refine ⟨(x - f.entryAddress).toNat, h, ?_, rfl⟩
  rw [BitVec.ofNat_toNat, BitVec.setWidth_eq, BitVec.add_comm, BitVec.sub_add_cancel]

/-- The stubs of the registered module are all that linking writes. -/
theorem addModuleImports_store {fuel : Nat} {modinfo : HostPtr} {modules : List RuntimeModule}
    (ht : readImportTable maps modinfo t.baseAddress = .ok t) (himage : LinkableImage maps t)
    (hrun : addModuleImports fuel modinfo t.baseAddress maps [] = .ok (true, maps', modules)) :
    ∃ mod, modules = [mod] ∧
      loadByte maps' = Store.overwriteAll (loadByte maps) (moduleStubs mod) := by
  obtain ⟨name, nid, libraries, rfl, hlists, hno, hlinked⟩ :=
    addModuleImports_linked ht himage hrun
  refine ⟨⟨name, nid, libraries⟩, rfl, funext fun x => ?_⟩
  by_cases hstub : ∃ s ∈ moduleStubs ⟨name, nid, libraries⟩, Reaches s x
  · obtain ⟨s, hs, hreach⟩ := hstub
    obtain ⟨library, hlibrary, f, hf, rfl⟩ := mem_moduleStubs.mp hs
    obtain ⟨k, i, hlisted⟩ := ListsImport.of_registered hlists hlibrary hf
    obtain ⟨hk, hmapped, -⟩ := hlisted.registered hlists hno
    obtain ⟨p, hp⟩ := mapped_iff.mp hmapped
    have hread := hlinked.stub p f ⟨k, i, library.libraryName, .inl hk, hlisted, hp⟩
    rw [Store.overwriteAll_inside _ hs hreach]
    · obtain ⟨o, ho, hx, hoff⟩ := Reaches.stub hreach
      have hp' : getPointerUnchecked maps' f.entryAddress = some p :=
        (hlinked.same.getPointerUnchecked _).symm.trans hp
      have hbyte := loadByte_add (hlinked.same.apart himage.apart) hp'
        (readBytes_isOk_iff.mp ⟨_, hread⟩) ho
      rw [← hx, ← readBytes_getElem? hread ho] at hbyte
      rw [hbyte, hoff]
    · -- another stub at the address would overlap this one
      intro s' hs' hreach'
      obtain ⟨library', hlibrary', f', hf', rfl⟩ := mem_moduleStubs.mp hs'
      obtain ⟨k', i', hlisted'⟩ := ListsImport.of_registered hlists hlibrary' hf'
      by_cases hindex : (k', i') = (k, i)
      · cases hindex
        obtain ⟨-, rfl⟩ := hlisted'.unique hlisted
        rfl
      · obtain ⟨o, ho, hx, -⟩ := Reaches.stub hreach
        obtain ⟨o', ho', hx', -⟩ := Reaches.stub hreach'
        exact absurd (hx'.symm.trans hx) (himage.stubs hlisted' hlisted hindex o' ho' o ho)
  · push Not at hstub
    rw [Store.overwriteAll_outside _ hstub, loadByte, loadByte, ← hlinked.same.getPointerUnchecked]
    cases hq : getPointerUnchecked maps x with
    | none => rfl
    | some q =>
      rw [Option.bind_some, Option.bind_some]
      refine hlinked.kept q fun p f hbefore => ?_
      obtain ⟨k, i, L, -, hlisted, hp⟩ := hbefore
      obtain ⟨-, -, library, hlibrary, -, hf⟩ := hlisted.registered hlists hno
      have hout := hstub _ (mem_moduleStubs.mpr ⟨library, hlibrary, f, hf, rfl⟩)
      have hareas : AreasApart x 1 f.entryAddress 12 := by
        intro i hi j hj heq
        obtain rfl : i = 0 := by omega
        refine hout ?_
        unfold Reaches
        rw [stubBytes_length]
        bv_omega
      exact hareas.clear hq hp (by decide) (by decide)

end Linking

/-! ## The whole image -/

/-- Once it is relocated, the image keeps its stubs clear of the tables it imports from. -/
def Linkable (data : SELFProgramData) (maps₀ : List MemoryMap) : Prop :=
  ∀ bottomAddress maps modinfo relocated t,
    mapSegments data.segments 0xFFFFFFFF#32 maps₀ = .ok (bottomAddress, maps) →
    moduleInfo data maps = .ok (some modinfo) →
    doSelfRelocationProgramData data maps = .ok (true, relocated) →
    readImportTable relocated modinfo bottomAddress = .ok t → LinkableImage relocated t

section Whole

variable {fuel : Nat} {data : SELFProgramData} {st st' : LoaderState}

/-- A call that returns `true` has been through all of its steps. -/
theorem load_of_true (h : loadSelfToMemory fuel (some data) st = .ok (true, st')) :
    ∃ bottomAddress maps modinfo relocated,
      mapSegments data.segments 0xFFFFFFFF#32 st.memoryMapList = .ok (bottomAddress, maps) ∧
      moduleInfo data maps = .ok (some modinfo) ∧
      doSelfRelocationProgramData data maps = .ok (true, relocated) ∧
      addModuleImports fuel modinfo bottomAddress relocated st.runtimeModuleList =
        .ok (true, st'.memoryMapList, st'.runtimeModuleList) := by
  obtain ⟨⟨bottomAddress, maps⟩, hmap, h⟩ := bind_ok.mp h
  by_cases hrel : data.relocatable = true
  · simp only [hrel, if_true] at h
    obtain ⟨modinfo, hinfo, h⟩ := bind_ok.mp h
    cases modinfo with
    | none => cases h
    | some modinfo =>
      obtain ⟨_, _, h⟩ := bind_ok.mp h
      obtain ⟨⟨selfRelocated, relocated⟩, hreloc, h⟩ := bind_ok.mp h
      cases selfRelocated with
      | false => cases h
      | true =>
        obtain ⟨⟨imported, linked, modules⟩, himport, h⟩ := bind_ok.mp h
        cases imported with
        | false => cases h
        | true =>
          obtain ⟨exported, _, h⟩ := bind_ok.mp h
          cases h
          exact ⟨bottomAddress, maps, modinfo, relocated, hmap, hinfo, hreloc, himport⟩
  · have hfalse : data.relocatable = false := by simpa using hrel
    simp only [hfalse, Bool.false_eq_true, if_false] at h
    cases h

theorem readImportTable_base {maps : List MemoryMap} {modinfo : HostPtr} {baseAddress : Word}
    {t : ImportTable} (h : readImportTable maps modinfo baseAddress = .ok t) :
    t.baseAddress = baseAddress := by
  obtain ⟨importTop, -, h⟩ := bind_ok.mp h
  obtain ⟨importEnd, -, h⟩ := bind_ok.mp h
  cases h
  rfl

/-- An import pass that returns has read the bounds of its table. -/
theorem readImportTable_of_import {modinfo : HostPtr} {baseAddress : Word} {state : Bool}
    {maps maps' : List MemoryMap} {modules modules' : List RuntimeModule}
    (h : addModuleImports fuel modinfo baseAddress maps modules = .ok (state, maps', modules')) :
    ∃ t, readImportTable maps modinfo baseAddress = .ok t := by
  obtain ⟨importTop, importEnd, -, htop, hend, -, -⟩ := addModuleImports_cases h
  refine ⟨⟨baseAddress, importTop, importEnd⟩, ?_⟩
  rw [readImportTable, htop, ok_bind, hend]
  rfl

/-- The maps after a load are those of the segments and those that were there. -/
theorem load_maps {maps₀ maps : List MemoryMap} {modules₀ modules : List RuntimeModule}
    (hapart : maps₀.Pairwise MemoryMap.Apart) (himage : ImageApart data.segments maps₀)
    (hload : loadSelfToMemory fuel (some data) ⟨maps₀, modules₀⟩ = .ok (true, ⟨maps, modules⟩)) :
    ∃ placed, ImagePlaced data.segments maps₀ placed ∧ SameMaps placed maps := by
  obtain ⟨bottomAddress, placed, modinfo, relocated, hmap, -, hreloc, himport⟩ := load_of_true hload
  obtain ⟨bottomAddress', placed', hmap', hplaced⟩ := mapSegments_store himage hapart 0xFFFFFFFF#32
  cases hmap.symm.trans hmap'
  exact ⟨placed, hplaced, (doSelfRelocationProgramData_sameMaps hreloc).trans
    (addModuleImports_sameMaps himport)⟩

/-- The bytes after a load are those of the store. -/
theorem load_bytes {maps₀ maps : List MemoryMap} {modules : List RuntimeModule}
    (hapart : maps₀.Pairwise MemoryMap.Apart) (himage : ImageApart data.segments maps₀)
    (htables : ∀ seg ∈ data.segments, seg.relocatable → seg.IsTable) (hlink : Linkable data maps₀)
    (hload : loadSelfToMemory fuel (some data) ⟨maps₀, []⟩ = .ok (true, ⟨maps, modules⟩)) :
    ∃ mod, modules = [mod] ∧
      loadByte maps = (data.relocated (loadByte maps₀)).overwriteAll (moduleStubs mod) := by
  obtain ⟨bottomAddress, placed, modinfo, relocated, hmap, hinfo, hreloc, himport⟩ :=
    load_of_true hload
  obtain ⟨bottomAddress', placed', hmap', hplaced⟩ := mapSegments_store himage hapart 0xFFFFFFFF#32
  cases hmap.symm.trans hmap'
  have hbytes : loadByte relocated = data.relocated (loadByte maps₀) := by
    rw [doSelfRelocationProgramData_eq htables] at hreloc
    rw [runEntries_store hplaced.apart hreloc, hplaced.bytes]
    rfl
  obtain ⟨t, ht⟩ := readImportTable_of_import himport
  obtain rfl := readImportTable_base ht
  have hlinkable := hlink _ _ _ _ _ hmap hinfo hreloc ht
  obtain ⟨mod, hmod, hstubs⟩ := addModuleImports_store ht hlinkable himport
  exact ⟨mod, hmod, by rw [hstubs, hbytes]⟩

/-- A load that returns `true`, of an image on pages of its own: the maps are those that were
there and one for each segment, without overlaps, and what the guest finds in them is the
image, relocated in the order of its tables, under the stubs of the module that is
registered. -/
theorem loaded_memory {maps₀ maps : List MemoryMap} {modules : List RuntimeModule}
    (hapart : maps₀.Pairwise MemoryMap.Apart) (himage : ImageApart data.segments maps₀)
    (htables : ∀ seg ∈ data.segments, seg.relocatable → seg.IsTable) (hlink : Linkable data maps₀)
    (hload : loadSelfToMemory fuel (some data) ⟨maps₀, []⟩ = .ok (true, ⟨maps, modules⟩)) :
    ∃ mod, modules = [mod] ∧ maps.Pairwise MemoryMap.Apart ∧
      (maps.map MemoryMap.header).Perm
        ((data.segments.filter (·.isMapped)).map (·.map.header) ++ maps₀.map MemoryMap.header) ∧
      loadByte maps = (data.relocated (loadByte maps₀)).overwriteAll (moduleStubs mod) := by
  obtain ⟨placed, hplaced, hsame⟩ := load_maps hapart himage hload
  obtain ⟨mod, hmod, hbytes⟩ := load_bytes hapart himage htables hlink hload
  refine ⟨mod, hmod, hsame.apart hplaced.apart, ?_, hbytes⟩
  rw [show maps.map MemoryMap.header = _ from hsame.symm]
  exact hplaced.headers

end Whole

/-- A table without descriptors links nothing. -/
theorem LinkableImage.of_empty {maps : List MemoryMap} {t : ImportTable}
    (hapart : maps.Pairwise MemoryMap.Apart) (hend : t.importEnd = 0) : LinkableImage maps t := by
  have hnone : ∀ k, ¬ t.Has k := by
    intro k hhas
    have hlt := hhas 0 (Nat.zero_le k)
    rw [hend] at hlt
    exact BitVec.not_lt_zero hlt
  have hno : ∀ {k i L f}, ¬ ListsImport maps t k i L f := by
    rintro k i L f ⟨_, hd, -⟩
    exact hnone k hd.1
  exact ⟨hapart, fun hd => absurd hd.1 (hnone _), fun h => absurd h hno, fun h => absurd h hno,
    fun h => absurd h hno, fun h => absurd h hno, fun h => absurd h hno⟩

/-- The end of the import table that the loader reads, once the image is relocated. -/
def SELFProgramData.importEnd (data : SELFProgramData) : Except Trap Word := do
  let (bottomAddress, maps) ← mapSegments data.segments 0xFFFFFFFF#32 []
  match ← moduleInfo data maps with
  | none => .error .nullAccess
  | some modinfo =>
    let (_, relocated) ← doSelfRelocationProgramData data maps
    let t ← readImportTable relocated modinfo bottomAddress
    return t.importEnd

/-- An image that imports nothing. -/
theorem linkable_of_importEnd {data : SELFProgramData} (himage : ImageApart data.segments [])
    (hnone : data.importEnd.toOption = some 0) : Linkable data [] := by
  intro bottomAddress maps modinfo relocated t hmap hinfo hreloc ht
  simp only [SELFProgramData.importEnd, hmap, hinfo, hreloc, ht, ok_bind] at hnone
  obtain ⟨bottomAddress', maps', hmap', hplaced⟩ := mapSegments_store himage .nil 0xFFFFFFFF#32
  cases hmap.symm.trans hmap'
  exact .of_empty ((doSelfRelocationProgramData_sameMaps hreloc).apart hplaced.apart)
    (Option.some.inj hnone)

/-- A page at `0x81000000` whose module info lists no import and no export, and a table of
one entry, which makes a word of it the address `0x81000010`. -/
def plainImage : SELFProgramData where
  entry := 0
  relocatable := true
  executableType := ET_SCE_RELEXEC
  segments :=
    [imageSegment "program_segment_0" 0x81000000#32 0x54#32 0x1000#32 (List.replicate 0x54 0),
      ⟨"program_segment_1", encode 4 0x200 ++ encode 4 0x10 ++ encode 4 0x50, 12, true, true,
        { ELFPhdr32.zero with pType := PT_SCE_RELA, pFilesz := 12#32 }⟩]

theorem plainImage_apart : ImageApart plainImage.segments [] where
  load := by
    intro s hs hm
    rcases List.mem_cons.mp hs with rfl | hs
    · exact imageSegment_isLoad (by decide) (by rw [List.length_replicate]; decide) (by decide)
    · cases List.mem_singleton.mp hs
      cases hm
  bounded := by
    intro s hs hm x _
    rcases List.mem_cons.mp hs with rfl | hs
    · decide
    · cases List.mem_singleton.mp hs
      cases hm
  pages := List.pairwise_singleton _ _
  clear := fun _ _ _ _ hit => nomatch hit

theorem plainImage_isTable : ∀ seg ∈ plainImage.segments, seg.relocatable → seg.IsTable := by
  intro seg hseg hr
  rcases List.mem_cons.mp hseg with rfl | hseg
  · cases hr
  · cases List.mem_singleton.mp hseg
    exact ⟨by decide, by decide, by decide⟩

theorem plainImage_linkable : Linkable plainImage [] :=
  linkable_of_importEnd plainImage_apart (by decide +kernel)

theorem loads_of_flag {fuel : Nat} {data : SELFProgramData}
    (hflag : (loadSelfToMemory fuel (some data) ⟨[], []⟩).toOption.map Prod.fst = some true) :
    ∃ maps modules,
      loadSelfToMemory fuel (some data) ⟨[], []⟩ = .ok (true, ⟨maps, modules⟩) := by
  cases hload : loadSelfToMemory fuel (some data) ⟨[], []⟩ with
  | error trap => simp [hload, Except.toOption] at hflag
  | ok result =>
    obtain ⟨flag, maps, modules⟩ := result
    obtain rfl : flag = true := by simpa [hload, Except.toOption] using hflag
    exact ⟨maps, modules, rfl⟩

theorem plainImage_loads :
    ∃ maps modules,
      loadSelfToMemory 1 (some plainImage) ⟨[], []⟩ = .ok (true, ⟨maps, modules⟩) :=
  loads_of_flag (by decide +kernel)

/-- The page is loaded, with its one word relocated. -/
theorem loaded_memory_plain :
    ∃ maps mod, loadSelfToMemory 1 (some plainImage) ⟨[], []⟩ = .ok (true, ⟨maps, [mod]⟩) ∧
      loadByte maps = (plainImage.relocated (loadByte [])).overwriteAll (moduleStubs mod) := by
  obtain ⟨maps, modules, hload⟩ := plainImage_loads
  obtain ⟨mod, rfl, -, -, hbytes⟩ :=
    loaded_memory .nil plainImage_apart plainImage_isTable plainImage_linkable hload
  exact ⟨maps, mod, hload, hbytes⟩

end Betavita.Loader
