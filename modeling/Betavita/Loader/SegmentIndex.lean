import Betavita.Loader.Decrypt
import Betavita.Loader.RelocationTable

/-!
# self_loader.cpp — program headers and segments

`decrypt_self_data` reads two tables of the file side by side and fills one vector, which
the relocation pass then indexes with the numbers of the program headers. An entry of the
vector stands for each header, also for one that is passed over.
-/

namespace Betavita.Loader

open Memory ByteBuffer

/-- The program headers of an image, in file order. -/
def ProgramHeaders (img : List Byte) (headers : List ELFPhdr32) : Prop :=
  ∃ hdr ehdr, readSCEHeader img = .ok hdr ∧ readELFHdr32 img hdr.elfOffset.toNat = .ok ehdr ∧
    headers.length = ehdr.ePhnum.toNat ∧
    ∀ i phdr, headers[i]? = some phdr →
      readELFPhdr32 img (hdr.phdrOffset.toNat + 0x20 * i) = .ok phdr

/-- An image has one list of program headers. -/
theorem ProgramHeaders.unique {img : List Byte} {headers headers' : List ELFPhdr32}
    (h : ProgramHeaders img headers) (h' : ProgramHeaders img headers') : headers = headers' := by
  obtain ⟨hdr, ehdr, hhdr, hehdr, hlen, hall⟩ := h
  obtain ⟨hdr', ehdr', hhdr', hehdr', hlen', hall'⟩ := h'
  cases hhdr.symm.trans hhdr'
  cases hehdr.symm.trans hehdr'
  refine List.ext_getElem (hlen.trans hlen'.symm) fun i hi hi' => ?_
  have hread := hall i _ (List.getElem?_eq_getElem hi)
  exact Except.ok.inj (hread.symm.trans (hall' i _ (List.getElem?_eq_getElem hi')))

/-- The types that have a case of their own. -/
def ELFPhdr32.IsLoaded (phdr : ELFPhdr32) : Prop := phdr.pType = PT_LOAD ∨ phdr.pType = PT_SCE_RELA

instance (phdr : ELFPhdr32) : Decidable phdr.IsLoaded := inferInstanceAs (Decidable (_ ∨ _))

/-- What a segment keeps of its program header: of a loaded type, the header itself; of any
other type, nothing. -/
structure CarriesHeader (phdr : ELFPhdr32) (segment : DecryptedSegment) : Prop where
  loaded : phdr.IsLoaded → segment.phdr = phdr ∧ segment.canLoad = true ∧
    (segment.relocatable = true ↔ phdr.pType = PT_SCE_RELA)
  inert : ¬ phdr.IsLoaded → segment.canLoad = false ∧ segment.relocatable = false

/-- The segments of the `PT_SCE_RELA` headers, in file order. -/
def relaTables (headers : List ELFPhdr32) (segments : List DecryptedSegment) :
    List DecryptedSegment :=
  ((headers.zip segments).filter fun e => e.1.pType = PT_SCE_RELA).map Prod.snd

/-- The tables are run one after the other, up to the first that is refused. -/
def runTables (segments : List DecryptedSegment) :
    List DecryptedSegment → List MemoryMap → Except Trap (Bool × List MemoryMap)
  | [], maps => .ok (true, maps)
  | table :: rest, maps => do
    let (performed, maps) ← performSegmentRelocation segments table 0 maps
    if !performed then return (false, maps)
    else runTables segments rest maps

section Decode

variable {z : Zlib} {fresh : FreshBuffers} {img : List Byte} {phdrOffset sectionInfoOffset : Nat}

/-- One round keeps the header it has read. -/
theorem decryptSegment_carries {i : Nat} {segment : DecryptedSegment}
    (h : decryptSegment z fresh img phdrOffset sectionInfoOffset i = .ok (some segment)) :
    ∃ phdr, readELFPhdr32 img (phdrOffset + 0x20 * i) = .ok phdr ∧ CarriesHeader phdr segment := by
  obtain ⟨phdr, hphdr, h⟩ := bind_ok.mp h
  refine ⟨phdr, hphdr, ?_⟩
  split at h
  · rename_i htype
    cases h
    exact ⟨fun hl => absurd hl (not_or.mpr htype), fun _ => ⟨rfl, rfl⟩⟩
  · rename_i htype
    have hl : phdr.IsLoaded := by
      unfold ELFPhdr32.IsLoaded
      tauto
    refine ⟨fun _ => ?_, fun hno => absurd hl hno⟩
    obtain ⟨info, _, h⟩ := bind_ok.mp h
    split at h
    · cases h
    · split at h
      · obtain ⟨source, _, h⟩ := bind_ok.mp h
        cases hout : z.uncompress source phdr.pFilesz.toNat with
        | none =>
          rw [hout] at h
          cases h
        | some out =>
          rw [hout] at h
          cases h
          exact ⟨rfl, rfl, decide_eq_true_iff⟩
      · cases h
        exact ⟨rfl, rfl, decide_eq_true_iff⟩

/-- Of every image that is decoded, segment `i` carries program header `i`. -/
theorem decryptSelfData_carries {self : SELFProgramData}
    (hok : decryptSelfData z fresh img = .ok (some self)) :
    ∃ headers, ProgramHeaders img headers ∧
      List.Forall₂ CarriesHeader headers self.segments := by
  obtain ⟨hdr, ehdr, hhdr, hehdr, hlen, hall⟩ := decryptSelfData_ok hok
  have hround : ∀ i : Fin self.segments.length, ∃ phdr,
      readELFPhdr32 img (hdr.phdrOffset.toNat + 0x20 * i) = .ok phdr ∧
        CarriesHeader phdr self.segments[i] :=
    fun i => decryptSegment_carries (hall i _ (List.getElem?_eq_getElem i.isLt))
  choose phdrs hread hcarry using hround
  refine ⟨List.ofFn phdrs, ⟨hdr, ehdr, hhdr, hehdr, by simpa using hlen, ?_⟩, ?_⟩
  · intro i phdr hi
    obtain ⟨hlt, rfl⟩ := List.getElem?_eq_some_iff.mp hi
    rw [List.getElem_ofFn]
    exact hread ⟨i, _⟩
  · rw [List.forall₂_iff_get]
    refine ⟨by simp, fun i hi hi' => ?_⟩
    simpa using hcarry ⟨i, hi'⟩

end Decode

section Pass

variable {headers : List ELFPhdr32} {segments : List DecryptedSegment}

/-- The relocatable segments are those of the `PT_SCE_RELA` headers. -/
theorem filter_relocatable_eq (h : List.Forall₂ CarriesHeader headers segments) :
    segments.filter (·.relocatable) = relaTables headers segments := by
  unfold relaTables
  induction h with
  | nil => rfl
  | @cons phdr segment headers segments hcarry _ ih =>
    have hrela : segment.relocatable = true ↔ phdr.pType = PT_SCE_RELA := by
      by_cases hl : phdr.IsLoaded
      · exact (hcarry.loaded hl).2.2
      · rw [(hcarry.inert hl).2]
        simp only [Bool.false_eq_true, false_iff]
        exact fun hr => hl (.inr hr)
    rw [List.zip_cons_cons]
    by_cases hr : segment.relocatable = true
    · rw [List.filter_cons_of_pos hr, List.filter_cons_of_pos (by simpa using hrela.mp hr),
        List.map_cons, ih]
    · rw [List.filter_cons_of_neg hr, List.filter_cons_of_neg (by simpa using mt hrela.mpr hr), ih]

theorem relocateSegments_eq_runTables (rest : List DecryptedSegment) (maps : List MemoryMap) :
    relocateSegments segments rest maps =
      runTables segments (rest.filter (·.relocatable)) maps := by
  induction rest generalizing maps with
  | nil => rfl
  | cons i rest ih =>
    rw [relocateSegments]
    by_cases hr : i.relocatable = true
    · rw [if_pos hr, List.filter_cons_of_pos hr, runTables]
      simp only [ih]
    · rw [if_neg hr, List.filter_cons_of_neg hr, ih]

/-- An index of an entry that is the number of a loaded header finds that header. -/
theorem CarriesHeader.addresses (h : List.Forall₂ CarriesHeader headers segments)
    {phdr : ELFPhdr32} (hl : phdr.IsLoaded) (e : EntryFormat0) :
    (headers[e.symbolSegment.toNat]? = some phdr → symbolAddress segments e = phdr.pVaddr) ∧
    (headers[e.patchSegment.toNat]? = some phdr →
      patchAddress segments e = phdr.pVaddr + e.offset) := by
  have hfound : ∀ i : Nat, headers[i]? = some phdr →
      ∃ segment : DecryptedSegment, segments[i]? = some segment ∧ segment.phdr = phdr := by
    intro i hi
    obtain ⟨hlt, rfl⟩ := List.getElem?_eq_some_iff.mp hi
    have hlt' : i < segments.length := h.length_eq ▸ hlt
    have hcarry : CarriesHeader headers[i] segments[i] := h.get hlt hlt'
    exact ⟨_, List.getElem?_eq_getElem hlt', (hcarry.loaded hl).1⟩
  constructor
  · intro hi
    obtain ⟨segment, hsegment, hphdr⟩ := hfound _ hi
    simp only [symbolAddress, hsegment, hphdr]
  · intro hi
    obtain ⟨segment, hsegment, hphdr⟩ := hfound _ hi
    simp only [patchAddress, hsegment, hphdr]

end Pass

/-- Segment indices survive decoding: of every image that is decoded there is one segment for
each program header, which carries the header if it is `PT_LOAD` or `PT_SCE_RELA`, marked
relocatable if it is the latter, and is inert otherwise; so the relocation pass runs the
`PT_SCE_RELA` tables in file order, and an index in an entry that is the number of a loaded
header stands for the address of that header. -/
theorem decryptSelfData_indices {z : Zlib} {fresh : FreshBuffers} {img : List Byte}
    {self : SELFProgramData} (hok : decryptSelfData z fresh img = .ok (some self)) :
    ∃ headers, ProgramHeaders img headers ∧ self.segments.length = headers.length ∧
      (∀ (i : Nat) phdr segment, headers[i]? = some phdr → self.segments[i]? = some segment →
        CarriesHeader phdr segment) ∧
      (∀ maps, doSelfRelocationProgramData self maps =
        runTables self.segments (relaTables headers self.segments) maps) ∧
      ∀ (e : EntryFormat0) (phdr : ELFPhdr32), phdr.IsLoaded →
        (headers[e.symbolSegment.toNat]? = some phdr →
          symbolAddress self.segments e = phdr.pVaddr) ∧
        (headers[e.patchSegment.toNat]? = some phdr →
          patchAddress self.segments e = phdr.pVaddr + e.offset) := by
  obtain ⟨headers, hheaders, hcarry⟩ := decryptSelfData_carries hok
  refine ⟨headers, hheaders, hcarry.length_eq.symm, fun i phdr segment hi hi' => ?_, fun maps => ?_,
    fun e phdr hl => CarriesHeader.addresses hcarry hl e⟩
  · obtain ⟨hlt, rfl⟩ := List.getElem?_eq_some_iff.mp hi
    obtain ⟨hlt', rfl⟩ := List.getElem?_eq_some_iff.mp hi'
    exact hcarry.get hlt hlt'
  · rw [doSelfRelocationProgramData, relocateSegments_eq_runTables, filter_relocatable_eq hcarry]

/-- A program header without bytes in the file. -/
def emptyHeader (pType vaddr : Nat) : List Byte :=
  encode 4 pType ++ encode 4 0 ++ encode 4 vaddr ++ List.replicate 20 0

/-- The segment info of a plain segment without bytes. -/
def emptyInfo : List Byte := List.replicate 16 0 ++ encode 8 1 ++ encode 8 2

/-- A relocatable file with two `PT_LOAD` headers, a header of another type between them, and a
`PT_SCE_RELA` header. -/
def mixedTypesFile : List Byte :=
  List.replicate 0x40 0 ++ encode 8 0x60 ++ encode 8 0x94 ++ encode 8 0 ++ encode 8 0x114 ++
    List.replicate 0x10 0 ++ encode 2 0xFE04 ++ List.replicate 6 0 ++ encode 4 0 ++
    List.replicate 0x10 0 ++ encode 2 4 ++ List.replicate 6 0 ++
    emptyHeader 1 0x81000000 ++ emptyHeader 0x70000001 0x85000000 ++ emptyHeader 1 0x82000000 ++
    emptyHeader 0x60000000 0 ++ emptyInfo ++ emptyInfo ++ emptyInfo ++ emptyInfo

/-- Its program headers. -/
def mixedTypes : List ELFPhdr32 :=
  [⟨1, 0, 0x81000000, 0, 0, 0, 0, 0⟩, ⟨0x70000001, 0, 0x85000000, 0, 0, 0, 0, 0⟩,
    ⟨1, 0, 0x82000000, 0, 0, 0, 0, 0⟩, ⟨0x60000000, 0, 0, 0, 0, 0, 0, 0⟩]

set_option maxRecDepth 8000 in
theorem mixedTypesFile_headers : ProgramHeaders mixedTypesFile mixedTypes := by
  refine ⟨⟨0x60, 0x94, 0x114⟩, ⟨0xFE04, 0, 4⟩, rfl, rfl, rfl, fun i phdr hi => ?_⟩
  have hlt := (List.getElem?_eq_some_iff.mp hi).1
  simp only [mixedTypes, List.length_cons, List.length_nil] at hlt
  interval_cases i <;> cases hi <;> rfl

set_option maxRecDepth 8000 in
/-- The header of another type keeps its place, so index 2 is the second `PT_LOAD` header. -/
theorem decryptSelfData_indices_mixed :
    ∃ self headers, decryptSelfData zlibOfA (filledWith 0) mixedTypesFile = .ok (some self) ∧
      ProgramHeaders mixedTypesFile headers ∧ self.segments.length = headers.length ∧
      symbolAddress self.segments ⟨0#4, 2#8, 2#4, 0#8, 0#4, 0#32, 8#32⟩ = 0x81000000#32 ∧
      patchAddress self.segments ⟨0#4, 2#8, 2#4, 0#8, 0#4, 0#32, 8#32⟩ = 0x82000008#32 ∧
      ∀ maps, doSelfRelocationProgramData self maps =
        runTables self.segments (self.segments.drop 3) maps := by
  obtain ⟨self, hok⟩ : ∃ self, decryptSelfData zlibOfA (filledWith 0) mixedTypesFile =
      .ok (some self) := ⟨_, rfl⟩
  obtain ⟨headers, hheaders, hlen, _, htables, haddresses⟩ := decryptSelfData_indices hok
  obtain rfl := hheaders.unique mixedTypesFile_headers
  have hfirst := haddresses ⟨0#4, 2#8, 2#4, 0#8, 0#4, 0#32, 8#32⟩
    ⟨1, 0, 0x81000000, 0, 0, 0, 0, 0⟩ (.inl rfl)
  have hthird := haddresses ⟨0#4, 2#8, 2#4, 0#8, 0#4, 0#32, 8#32⟩
    ⟨1, 0, 0x82000000, 0, 0, 0, 0, 0⟩ (.inl rfl)
  refine ⟨self, _, hok, hheaders, hlen, hfirst.1 rfl, hthird.2 rfl, fun maps => ?_⟩
  have htable : relaTables mixedTypes self.segments = self.segments.drop 3 := by
    match hsegments : self.segments, hlen with
    | [_, _, _, _], _ => rfl
  rw [htables, htable]

end Betavita.Loader
