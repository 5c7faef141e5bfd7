import Betavita.Loader.LoadedImage
import Betavita.Loader.SegmentIndex

/-!
# From a file to guest memory

`decrypt_self_data` and `load_self_to_memory` one after the other. What has to hold of the
image for its segments to be put in place follows from the program headers of the file, and
where no relocation and no stub reaches, the guest finds the content of the file at the
addresses that the headers give.
-/

namespace Betavita.Loader

open Memory Hle ByteBuffer ByteStore

/-- The addresses of the map of a header. -/
def ELFPhdr32.Covers (phdr : ELFPhdr32) (x : Word) : Prop :=
  phdr.pVaddr ≤ x ∧ x ≤ pageAlignedTopAddressEnd phdr

/-- Every compressed segment unpacks to the file size in its header. -/
def StreamsMatch (z : Zlib) (img : List Byte) : Prop :=
  ∀ i phdr info, HeaderAt img i phdr info → info.compression = 2 → ∀ source out,
    bufRead img info.offset.toNat info.length.toNat = .ok source →
      z.decompression source = some out → out.length = phdr.pFilesz.toNat

/-- The `PT_LOAD` headers have the room they ask for, on pages of their own, and none has the
whole address space. -/
structure HeadersApart (headers : List ELFPhdr32) : Prop where
  filesz : ∀ phdr ∈ headers, phdr.pType = PT_LOAD → phdr.pFilesz.toNat ≤ phdr.pMemsz.toNat
  noWrap : ∀ phdr ∈ headers, phdr.pType = PT_LOAD →
    phdr.pVaddr.toNat + phdr.pMemsz.toNat ≤ 2 ^ 32
  bounded : ∀ phdr ∈ headers, phdr.pType = PT_LOAD →
    phdr.pVaddr ≠ 0 ∨ pageAlignedTopAddressEnd phdr ≠ 0xFFFFFFFF#32
  pages : headers.Pairwise fun a b => a.pType = PT_LOAD → b.pType = PT_LOAD →
    ∀ x, a.Covers x → ¬ b.Covers x

/-- No relocation and no stub reaches the address. -/
structure Untouched (data : SELFProgramData) (mod : RuntimeModule) (x : Word) : Prop where
  patches : ∀ c ∈ tablePatches data.segments 4#32 data.entries, 4 ≤ (x - c.P).toNat
  stubs : ∀ s ∈ moduleStubs mod, ¬ Reaches s x

/-! ## The segments of a file -/

section File

variable {z : Zlib} {fresh : FreshBuffers} {img : List Byte} {data : SELFProgramData}

/-- The entry of a header carries it. -/
theorem HeaderAt.carried {i : Nat} {phdr : ELFPhdr32} {info : SegmentInfo}
    (h : HeaderAt img i phdr info) (hok : decryptSelfData z fresh img = .ok (some data))
    {s : DecryptedSegment} (hs : data.segments[i]? = some s) :
    s.phdr = phdr ∧ s.canLoad = true ∧ (s.relocatable = true ↔ phdr.pType = PT_SCE_RELA) := by
  obtain ⟨hdr, ehdr, hhdr, hehdr, -, hphdr, -⟩ := h.exists_header
  obtain ⟨hdr', ehdr', hhdr', -, -, hall⟩ := decryptSelfData_ok hok
  cases hhdr.symm.trans hhdr'
  obtain ⟨phdr', hphdr', hcarry⟩ := decryptSegment_carries (hall i s hs)
  cases hphdr.symm.trans hphdr'
  exact hcarry.loaded h.loaded

/-- An entry that can be loaded has a header and a segment info in the file. -/
theorem headerAt_of_segment (hok : decryptSelfData z fresh img = .ok (some data)) {i : Nat}
    {s : DecryptedSegment} (hs : data.segments[i]? = some s) (hload : s.canLoad = true) :
    ∃ info, HeaderAt img i s.phdr info := by
  obtain ⟨hdr, ehdr, hhdr, hehdr, hlen, hall⟩ := decryptSelfData_ok hok
  have hround := hall i s hs
  obtain ⟨phdr, hphdr, hcarry⟩ := decryptSegment_carries hround
  have hloaded : phdr.IsLoaded := by
    by_contra hno
    rw [(hcarry.inert hno).1] at hload
    cases hload
  have hphdr' := (hcarry.loaded hloaded).1
  obtain ⟨_, hread, hround⟩ := bind_ok.mp hround
  rw [hphdr] at hread
  cases hread
  have htype : ¬ (phdr.pType ≠ PT_LOAD ∧ phdr.pType ≠ PT_SCE_RELA) := not_and_or.mpr
    (hloaded.imp not_not_intro not_not_intro)
  simp only [if_neg htype] at hround
  obtain ⟨info, hinfo, -⟩ := bind_ok.mp hround
  have hi : i < data.segments.length := (List.getElem?_eq_some_iff.mp hs).1
  exact ⟨info, ⟨hdr, ehdr, hhdr, hehdr, hlen ▸ hi, hphdr' ▸ hphdr, hinfo⟩, hphdr' ▸ hloaded⟩

/-- The buffer of an entry has the bytes that are copied from it. -/
theorem EntryOf.buffer {i : Nat} {phdr : ELFPhdr32} {info : SegmentInfo} {s : DecryptedSegment}
    (h : EntryOf z fresh img i phdr info s) : s.segmentLength ≤ s.data.length := by
  by_cases hcomp : info.compression = 2
  · obtain ⟨source, out, -, -, hlen, hdata⟩ := h.compressed hcomp
    have htake := congrArg List.length hdata
    rw [List.length_take] at htake
    omega
  · obtain ⟨hlen, hdata⟩ := h.plain hcomp
    rw [hlen, hdata, (fresh i phdr.pFilesz.toNat).property]

/-- An entry has the file size of its header: a plain one by its allocation. -/
theorem EntryOf.length (hz : z.Documented) (hsizes : StreamsMatch z img) {i : Nat}
    {phdr : ELFPhdr32} {info : SegmentInfo} {s : DecryptedSegment}
    (h : EntryOf z fresh img i phdr info s) (hat : HeaderAt img i phdr info) :
    s.segmentLength = phdr.pFilesz.toNat := by
  by_cases hcomp : info.compression = 2
  · obtain ⟨source, out, hsource, hout, hlen, -⟩ := h.compressed hcomp
    rw [hlen]
    exact hsizes i phdr info hat hcomp source out hsource (hz _ _ _ hout).1
  · exact (h.plain hcomp).1

/-- A mapped segment is a loadable one, of a `PT_LOAD` header. -/
theorem isLoad_of_mapped (hz : z.Documented) (hsizes : StreamsMatch z img)
    (hok : decryptSelfData z fresh img = .ok (some data)) {headers : List ELFPhdr32}
    (hheaders : List.Forall₂ CarriesHeader headers data.segments) (hapart : HeadersApart headers)
    {i : Nat} {s : DecryptedSegment} (hs : data.segments[i]? = some s) (hm : s.isMapped = true) :
    s.IsLoad ∧ headers[i]? = some s.phdr ∧ s.phdr.pType = PT_LOAD := by
  obtain ⟨hcan, hrel⟩ : s.canLoad = true ∧ s.relocatable = false := by
    simpa [DecryptedSegment.isMapped] using hm
  obtain ⟨info, hat⟩ := headerAt_of_segment hok hs hcan
  obtain ⟨s', hs', hentry⟩ := hat.entry hok
  cases hs.symm.trans hs'
  obtain ⟨hlt, rfl⟩ := List.getElem?_eq_some_iff.mp hs
  have hlt' : i < headers.length := hheaders.length_eq ▸ hlt
  have hcarry : CarriesHeader headers[i] data.segments[i] := hheaders.get hlt' hlt
  have hloaded : headers[i].IsLoaded := by
    by_contra hno
    rw [(hcarry.inert hno).1] at hcan
    cases hcan
  obtain ⟨hphdr, -, hrela⟩ := hcarry.loaded hloaded
  have htype : headers[i].pType = PT_LOAD := by
    refine hloaded.resolve_right fun hr => ?_
    rw [hrela.mpr hr] at hrel
    cases hrel
  have hmem : headers[i] ∈ headers := List.getElem_mem hlt'
  have hlength := hentry.length hz hsizes hat
  rw [hphdr] at hlength ⊢
  refine ⟨⟨hcan, hrel, ?_, ?_, hentry.buffer, ?_⟩, List.getElem?_eq_getElem hlt', htype⟩
  · rw [hphdr]
    exact hlength
  · rw [hphdr]
    exact hapart.filesz _ hmem htype
  · rw [hphdr]
    exact hapart.noWrap _ hmem htype

/-- From the headers of the file: its segments have pages of their own. -/
theorem HeadersApart.image (hz : z.Documented) (hsizes : StreamsMatch z img)
    (hok : decryptSelfData z fresh img = .ok (some data)) {headers : List ELFPhdr32}
    (hheaders : List.Forall₂ CarriesHeader headers data.segments) (hapart : HeadersApart headers) :
    ImageApart data.segments [] where
  load := by
    intro s hs hm
    obtain ⟨i, hi, rfl⟩ := List.getElem_of_mem hs
    exact (isLoad_of_mapped hz hsizes hok hheaders hapart (List.getElem?_eq_getElem hi) hm).1
  bounded := by
    intro s hs hm x hx
    obtain ⟨i, hi, rfl⟩ := List.getElem_of_mem hs
    obtain ⟨-, hphdr, htype⟩ :=
      isLoad_of_mapped hz hsizes hok hheaders hapart (List.getElem?_eq_getElem hi) hm
    have hbounded : data.segments[i].vaddr ≠ 0 ∨ data.segments[i].pageEnd ≠ 0xFFFFFFFF#32 :=
      hapart.bounded _ (List.mem_of_getElem? hphdr) htype
    obtain ⟨hlo, hhi⟩ := hx
    unfold DecryptedSegment.mapSize
    rcases hbounded with hstart | hend
    · bv_omega
    · bv_omega
  pages := by
    rw [List.pairwise_filter, List.pairwise_iff_getElem]
    intro i j hi hj hij hmi hmj x hxi hxj
    obtain ⟨-, hphdri, htypei⟩ :=
      isLoad_of_mapped hz hsizes hok hheaders hapart (List.getElem?_eq_getElem hi) hmi
    obtain ⟨-, hphdrj, htypej⟩ :=
      isLoad_of_mapped hz hsizes hok hheaders hapart (List.getElem?_eq_getElem hj) hmj
    obtain ⟨hi', heqi⟩ := List.getElem?_eq_some_iff.mp hphdri
    obtain ⟨hj', heqj⟩ := List.getElem?_eq_some_iff.mp hphdrj
    have hpages := List.pairwise_iff_getElem.mp hapart.pages i j hi' hj' hij
    rw [heqi, heqj] at hpages
    exact hpages htypei htypej x hxi hxj
  clear := fun _ _ _ _ hit => nomatch hit

end File

/-! ## Bytes that nothing reaches -/

section Bytes

variable {mem : Store 32 Byte} {s : DecryptedSegment} {x : Word}

theorem place_outside (hload : s.isMapped = true → s.IsLoad)
    (hx : s.isMapped = true → ¬ s.Covers x) : s.place mem x = mem x := by
  unfold DecryptedSegment.place
  split
  · rename_i hm
    have hl := hload hm
    have hbuffer := hl.buffer
    have hlen : (slice s.data 0 s.segmentLength).length = s.segmentLength := slice_length (by omega)
    rw [Store.overwrite_outside, Store.fill_outside _ (hx hm)]
    rw [hlen]
    by_contra hlt
    -- the bytes of the file lie in the map
    have hc := hl.covers (hl.lt_memsz (k := (x - s.vaddr).toNat) (by omega))
    rw [BitVec.ofNat_toNat, BitVec.setWidth_eq, BitVec.add_comm, BitVec.sub_add_cancel] at hc
    exact hx hm hc
  · rfl

theorem place_inside (hm : s.isMapped = true) (hl : s.IsLoad) {k : Nat}
    (hk : k < s.phdr.pMemsz.toNat) : s.place mem (s.vaddr + BitVec.ofNat 32 k) =
      if k < s.segmentLength then s.data[k]? else some 0 := by
  have hbuffer := hl.buffer
  have hwrap := hl.noWrap
  have hlen : (slice s.data 0 s.segmentLength).length = s.segmentLength := slice_length (by omega)
  have hoff : (s.vaddr + BitVec.ofNat 32 k - s.vaddr).toNat = k := by
    have hlt := s.phdr.pMemsz.isLt
    rw [BitVec.add_comm, BitVec.add_sub_cancel, BitVec.toNat_ofNat, Nat.mod_eq_of_lt (by omega)]
  rw [DecryptedSegment.place, if_pos hm]
  split
  · rename_i hfile
    have hin : (s.vaddr + BitVec.ofNat 32 k - s.vaddr).toNat <
        (slice s.data 0 s.segmentLength).length := by omega
    rw [Store.overwrite_inside _ hin, ← List.getElem?_eq_getElem, hoff, slice_getElem?,
      if_pos hfile, Nat.zero_add]
  · rw [Store.overwrite_outside _ (by omega), Store.fill_inside _ (hl.covers hk)]

theorem placeAll_outside {segments : List DecryptedSegment}
    (hload : ∀ s ∈ segments, s.isMapped = true → s.IsLoad)
    (hx : ∀ s ∈ segments, s.isMapped = true → ¬ s.Covers x) :
    segments.foldl DecryptedSegment.place mem x = mem x := by
  induction segments generalizing mem with
  | nil => rfl
  | cons s rest ih =>
    rw [List.foldl_cons, ih (fun t ht => hload t (List.mem_cons_of_mem _ ht)) fun t ht =>
      hx t (List.mem_cons_of_mem _ ht)]
    exact place_outside (hload s List.mem_cons_self) (hx s List.mem_cons_self)

/-- A byte of a segment is put in place once. -/
theorem placeAll_inside {segments : List DecryptedSegment}
    (hload : ∀ s ∈ segments, s.isMapped = true → s.IsLoad)
    (hpages : (segments.filter (·.isMapped)).Pairwise fun a b => ∀ x, a.Covers x → ¬ b.Covers x)
    (hs : s ∈ segments) (hm : s.isMapped = true) {k : Nat} (hk : k < s.phdr.pMemsz.toNat) :
    segments.foldl DecryptedSegment.place mem (s.vaddr + BitVec.ofNat 32 k) =
      if k < s.segmentLength then s.data[k]? else some 0 := by
  induction segments generalizing mem with
  | nil => cases hs
  | cons t rest ih =>
    have hrest : ∀ u ∈ rest, u.isMapped = true → u.IsLoad := fun u hu =>
      hload u (List.mem_cons_of_mem _ hu)
    rw [List.foldl_cons]
    by_cases hmem : s ∈ rest
    · refine ih hrest ?_ hmem
      exact hpages.sublist ((List.sublist_cons_self t rest).filter _)
    · obtain rfl : s = t := (List.mem_cons.mp hs).resolve_right hmem
      have hl := hload s List.mem_cons_self hm
      rw [List.filter_cons_of_pos hm, List.pairwise_cons] at hpages
      rw [placeAll_outside hrest fun u hu hum =>
        hpages.1 u (List.mem_filter.mpr ⟨hu, hum⟩) _ (hl.covers hk)]
      exact place_inside hm hl hk

/-- Relocations leave the bytes outside their words. -/
theorem patches_outside {cs : List Patch} (h : ∀ c ∈ cs, 4 ≤ (x - c.P).toNat) :
    cs.foldl Patch.store mem x = mem x := by
  induction cs generalizing mem with
  | nil => rfl
  | cons c cs ih =>
    rw [List.foldl_cons, ih fun d hd => h d (List.mem_cons_of_mem _ hd)]
    refine Store.overwrite_outside _ ?_
    rw [encode_length]
    exact h c List.mem_cons_self

end Bytes

/-- A file is decoded and loaded into empty memory. Where its streams unpack to their sizes, its
headers have pages of their own and its stubs keep clear of the import tables, a load that
returns `true` has put the content of every compressed `PT_LOAD` segment, and zeros behind it,
at the addresses of its header, wherever no relocation and no stub reaches. -/
theorem loaded_file {z : Zlib} {fresh : FreshBuffers} {img : List Byte} {data : SELFProgramData}
    {headers : List ELFPhdr32} {fuel : Nat} {maps : List MemoryMap} {modules : List RuntimeModule}
    (hz : z.Documented) (hsizes : StreamsMatch z img)
    (hheaders : ProgramHeaders img headers) (hapart : HeadersApart headers)
    (hok : decryptSelfData z fresh img = .ok (some data))
    (htables : ∀ seg ∈ data.segments, seg.relocatable → seg.IsTable) (hlink : Linkable data [])
    (hload : loadSelfToMemory fuel (some data) ⟨[], []⟩ = .ok (true, ⟨maps, modules⟩)) :
    ∃ mod, modules = [mod] ∧ ∀ i phdr info, HeaderAt img i phdr info → phdr.pType = PT_LOAD →
      info.compression = 2 → ∃ source content,
        bufRead img info.offset.toNat info.length.toNat = .ok source ∧
        z.decompression source = some content ∧
        ∀ k < phdr.pMemsz.toNat, Untouched data mod (phdr.pVaddr + BitVec.ofNat 32 k) →
          loadByte maps (phdr.pVaddr + BitVec.ofNat 32 k) =
            if k < phdr.pFilesz.toNat then content[k]? else some 0 := by
  obtain ⟨headers', hheaders', hcarry⟩ := decryptSelfData_carries hok
  obtain rfl := hheaders.unique hheaders'
  have himage := hapart.image hz hsizes hok hcarry
  obtain ⟨mod, hmod, hbytes⟩ := load_bytes .nil himage htables hlink hload
  refine ⟨mod, hmod, fun i phdr info hat htype hcomp => ?_⟩
  obtain ⟨s, hs, hentry⟩ := hat.entry hok
  have hlength := hentry.length hz hsizes hat
  obtain ⟨source, out, hsource, hout, -, hdata⟩ := hentry.compressed hcomp
  refine ⟨source, out, hsource, (hz _ _ _ hout).1, fun k hk hclear => ?_⟩
  obtain ⟨hphdr, hcan, hrela⟩ := hat.carried hok hs
  have hm : s.isMapped = true := by
    have hrel : s.relocatable = false := by
      by_contra hne
      have hr := hrela.mp (by simpa using hne)
      rw [htype] at hr
      exact absurd hr (by decide)
    simp [DecryptedSegment.isMapped, hcan, hrel]
  rw [hbytes, Store.overwriteAll_outside _ hclear.stubs, SELFProgramData.relocated,
    patches_outside hclear.patches]
  have hbyte : data.segments.foldl DecryptedSegment.place (loadByte [])
      (s.vaddr + BitVec.ofNat 32 k) = if k < s.segmentLength then s.data[k]? else some 0 :=
    placeAll_inside himage.load himage.pages (List.mem_of_getElem? hs) hm (by rw [hphdr]; exact hk)
  rw [DecryptedSegment.vaddr, hphdr] at hbyte
  rw [hbyte, hlength]
  split
  · rename_i hfile
    rw [← hdata, List.getElem?_take, if_pos (by omega)]
  · rfl

/-- The entry of the file with one compressed byte, at `0x81000000`. -/
def oneSegment : SELFProgramData where
  entry := 0
  relocatable := true
  executableType := ET_SCE_RELEXEC
  segments := [imageSegment "program_segment_0" 0x81000000#32 1#32 1#32 [0x41#8]]

set_option maxRecDepth 8000 in
theorem oneSegment_decrypts :
    decryptSelfData zlibOfA (filledWith 0) (oneSegmentFile 1 2 streamOfA) =
      .ok (some oneSegment) := rfl

theorem oneSegment_headers {headers : List ELFPhdr32}
    (h : List.Forall₂ CarriesHeader headers oneSegment.segments) :
    headers = [(imageSegment "program_segment_0" 0x81000000#32 1#32 1#32 [0x41#8]).phdr] := by
  cases h with
  | @cons phdr _ _ _ hcarry hrest =>
    cases hrest
    by_cases hloaded : phdr.IsLoaded
    · rw [(hcarry.loaded hloaded).1]
    · exact absurd (hcarry.inert hloaded).1 (by decide)

set_option maxRecDepth 8000 in
theorem oneSegment_streams : StreamsMatch zlibOfA (oneSegmentFile 1 2 streamOfA) := by
  intro i phdr info hat _ source out _ hout
  obtain ⟨s, hs, -⟩ := hat.entry oneSegment_decrypts
  obtain ⟨hphdr, -, -⟩ := hat.carried oneSegment_decrypts hs
  obtain rfl : i = 0 := by
    have hlt : i < 1 := (List.getElem?_eq_some_iff.mp hs).1
    omega
  cases hs
  simp only [zlibOfA] at hout
  split at hout
  · cases hout
    rw [← hphdr]
    rfl
  · cases hout

set_option maxRecDepth 8000 in
/-- The byte of the stream is found at the address of its header. -/
theorem loaded_file_one :
    ∃ maps mod, loadSelfToMemory 1 (some oneSegment) ⟨[], []⟩ = .ok (true, ⟨maps, [mod]⟩) ∧
      loadByte maps 0x81000000#32 = some 0x41#8 := by
  obtain ⟨headers, hheaders, hcarry⟩ := decryptSelfData_carries oneSegment_decrypts
  have hapart : HeadersApart headers := by
    rw [oneSegment_headers hcarry]
    refine ⟨fun phdr hphdr _ => ?_, fun phdr hphdr _ => ?_, fun phdr hphdr _ => ?_,
      List.pairwise_singleton _ _⟩
    · cases List.mem_singleton.mp hphdr
      decide
    · cases List.mem_singleton.mp hphdr
      decide
    · cases List.mem_singleton.mp hphdr
      exact .inl (by decide)
  have himage := hapart.image zlibOfA_documented oneSegment_streams oneSegment_decrypts hcarry
  have hmodules : (loadSelfToMemory 1 (some oneSegment) ⟨[], []⟩).toOption.map
      (fun r => (r.1, r.2.runtimeModuleList)) = some (true, [⟨[], 0, []⟩]) := by decide +kernel
  cases hload : loadSelfToMemory 1 (some oneSegment) ⟨[], []⟩ with
  | error trap => simp [hload, Except.toOption] at hmodules
  | ok result =>
    obtain ⟨flag, maps, modules⟩ := result
    simp only [hload, Except.toOption, Option.map_some, Option.some.injEq, Prod.mk.injEq]
      at hmodules
    obtain ⟨rfl, rfl⟩ := hmodules
    have htables : ∀ seg ∈ oneSegment.segments, seg.relocatable → seg.IsTable := by
      intro seg hseg hr
      cases List.mem_singleton.mp hseg
      cases hr
    obtain ⟨mod, hmod, hbytes⟩ := loaded_file zlibOfA_documented oneSegment_streams hheaders hapart
      oneSegment_decrypts htables (linkable_of_importEnd himage (by decide +kernel)) hload
    cases hmod
    obtain ⟨phdr, info, hat, htype, hcomp, haddr, hfilesz, hmemsz⟩ : ∃ phdr info,
        HeaderAt (oneSegmentFile 1 2 streamOfA) 0 phdr info ∧ phdr.pType = PT_LOAD ∧
          info.compression = 2 ∧ phdr.pVaddr = 0x81000000#32 ∧ phdr.pFilesz = 1#32 ∧
          phdr.pMemsz = 1#32 :=
      ⟨_, _, ⟨⟨_, _, rfl, rfl, by decide, rfl, rfl⟩, .inl rfl⟩, rfl, rfl, rfl, rfl, rfl⟩
    obtain ⟨source, content, -, hcontent, hbyte⟩ := hbytes 0 phdr info hat htype hcomp
    have huntouched : Untouched oneSegment ⟨[], 0, []⟩ (phdr.pVaddr + BitVec.ofNat 32 0) := by
      constructor
      · intro c hc
        cases hc
      · intro s hs
        cases hs
    have hfirst := hbyte 0 (by rw [hmemsz]; decide) huntouched
    rw [haddr, hfilesz, if_pos (by decide)] at hfirst
    refine ⟨maps, _, rfl, hfirst.trans ?_⟩
    simp only [zlibOfA] at hcontent
    split at hcontent
    · cases hcontent
      rfl
    · cases hcontent

end Betavita.Loader
