import Betavita.Loader.Elf

/-!
# self_loader.cpp — decoding the segments of a SELF file

`decrypt_self_data` walks the program headers and the segment infos side by side and
makes one entry for each header. zlib is a parameter, and so is the content of a
buffer that `new` returned.
-/

namespace Betavita.Loader

open Memory ByteBuffer

/-- zlib: what `uncompress(dest, &destLen, source)` writes to `dest` when it returns
`Z_OK` (it then stores the number of bytes in `destLen`), and the data that a zlib
stream stands for. -/
structure Zlib where
  uncompress : (source : List Byte) → (destLen : Nat) → Option (List Byte)
  decompression : List Byte → Option (List Byte)

/-- On `Z_OK` the destination holds the decompressed data. -/
def Zlib.Documented (z : Zlib) : Prop :=
  ∀ source destLen out, z.uncompress source destLen = some out →
    z.decompression source = some out ∧ out.length ≤ destLen

/-- The unspecified content of the buffer allocated for segment `i`. -/
abbrev FreshBuffers := (i n : Nat) → { bytes : List Byte // bytes.length = n }

section Decrypt

variable (z : Zlib) (fresh : FreshBuffers) (img : List Byte)

/-- One round of the loop; `none` is `return nullptr`. -/
def decryptSegment (phdrOffset sectionInfoOffset i : Nat) :
    Except Trap (Option DecryptedSegment) := do
  let phdr ← readELFPhdr32 img (phdrOffset + 0x20 * i)
  let data := (fresh i phdr.pFilesz.toNat).val
  if phdr.pType ≠ PT_LOAD ∧ phdr.pType ≠ PT_SCE_RELA then return some .zero
  else
    let segment : DecryptedSegment :=
      { name := "program_segment_" ++ toString i
        data := data
        segmentLength := phdr.pFilesz.toNat
        relocatable := phdr.pType = PT_SCE_RELA
        canLoad := true
        phdr := phdr }
    let info ← readSegmentInfo img (sectionInfoOffset + 0x20 * i)
    if info.encryption = 1 then return none
    else if info.compression = 2 then
      let source ← bufRead img info.offset.toNat info.length.toNat
      match z.uncompress source segment.segmentLength with
      | none => return none
      | some out =>
        return some { segment with data := patch data 0 out, segmentLength := out.length }
    else return some segment

/-- The loop, `n` rounds from round `i` on. -/
def decryptSegments (phdrOffset sectionInfoOffset : Nat) :
    Nat → Nat → List DecryptedSegment → Except Trap (Option (List DecryptedSegment))
  | _, 0, segments => .ok (some segments)
  | i, n + 1, segments => do
    match ← decryptSegment z fresh img phdrOffset sectionInfoOffset i with
    | none => return none
    | some segment =>
      decryptSegments phdrOffset sectionInfoOffset (i + 1) n (segments ++ [segment])

/-- `decrypt_self_data`; `none` is `nullptr`. -/
def decryptSelfData : Except Trap (Option SELFProgramData) := do
  let hdr ← readSCEHeader img
  let ehdr ← readELFHdr32 img hdr.elfOffset.toNat
  if ehdr.eType ≠ ET_SCE_EXEC ∧ ehdr.eType ≠ ET_SCE_RELEXEC then return none
  else
    match ← decryptSegments z fresh img hdr.phdrOffset.toNat hdr.sectionInfoOffset.toNat 0
        ehdr.ePhnum.toNat [] with
    | none => return none
    | some segments =>
      return some
        { entry := ehdr.eEntry
          relocatable := ehdr.eType = ET_SCE_RELEXEC
          executableType := ehdr.eType
          segments := segments }

end Decrypt

/-! ## What an entry should be -/

/-- Program header `i` of the image and its segment info. -/
structure HeaderAt (img : List Byte) (i : Nat) (phdr : ELFPhdr32) (info : SegmentInfo) :
    Prop where
  exists_header : ∃ hdr ehdr, readSCEHeader img = .ok hdr ∧
    readELFHdr32 img hdr.elfOffset.toNat = .ok ehdr ∧ i < ehdr.ePhnum.toNat ∧
    readELFPhdr32 img (hdr.phdrOffset.toNat + 0x20 * i) = .ok phdr ∧
    readSegmentInfo img (hdr.sectionInfoOffset.toNat + 0x20 * i) = .ok info
  loaded : phdr.pType = PT_LOAD ∨ phdr.pType = PT_SCE_RELA

/-- The entry has the length of the header and the content of the segment: the
decompressed bytes of the file, or the bytes themselves. -/
structure Decoded (z : Zlib) (img : List Byte) (phdr : ELFPhdr32) (info : SegmentInfo)
    (segment : DecryptedSegment) : Prop where
  length : segment.segmentLength = phdr.pFilesz.toNat
  compressed : info.compression = 2 →
    ∃ source, bufRead img info.offset.toNat info.length.toNat = .ok source ∧
      z.decompression source = some (segment.data.take segment.segmentLength)
  plain : info.compression = 1 →
    bufRead img info.offset.toNat info.length.toNat =
      .ok (segment.data.take segment.segmentLength)

/-- Every entry of the result is decoded, whatever the fresh buffers contain. -/
def DecodesSegments (z : Zlib) (img : List Byte) : Prop :=
  ∀ fresh self, decryptSelfData z fresh img = .ok (some self) →
    ∀ i phdr info, HeaderAt img i phdr info →
      ∃ segment, self.segments[i]? = some segment ∧ Decoded z img phdr info segment

/-- Every compressed segment unpacks to the file size in its header, and every plain
segment is empty. -/
def FileSizesMatch (z : Zlib) (img : List Byte) : Prop :=
  ∀ i phdr info, HeaderAt img i phdr info →
    (info.compression = 2 → ∀ source out,
      bufRead img info.offset.toNat info.length.toNat = .ok source →
        z.decompression source = some out → out.length = phdr.pFilesz.toNat) ∧
    (info.compression = 1 → phdr.pFilesz = 0 ∧ info.length = 0)

/-! ## What the loop does -/

section Lemmas

variable {z : Zlib} {fresh : FreshBuffers} {img : List Byte} {phdrOffset sectionInfoOffset : Nat}

/-- The loop yields one entry for each round. -/
theorem decryptSegments_ok {i n : Nat} {segments result : List DecryptedSegment} :
    decryptSegments z fresh img phdrOffset sectionInfoOffset i n segments = .ok (some result) ↔
      ∃ rest, result = segments ++ rest ∧ rest.length = n ∧ ∀ j segment, rest[j]? = some segment →
        decryptSegment z fresh img phdrOffset sectionInfoOffset (i + j) = .ok (some segment) := by
  induction n generalizing i segments with
  | zero =>
    constructor
    · intro h
      cases h
      exact ⟨[], (List.append_nil _).symm, rfl, by simp⟩
    · intro h
      obtain ⟨rest, hresult, hlen, _⟩ := h
      rw [hresult, List.length_eq_zero_iff.mp hlen, List.append_nil]
      rfl
  | succ n ih =>
    rw [decryptSegments, bind_ok]
    constructor
    · intro h
      obtain ⟨found, hfound, hrest⟩ := h
      cases found with
      | none => cases hrest
      | some segment =>
        obtain ⟨rest, hresult, hlen, hall⟩ := ih.mp hrest
        refine ⟨segment :: rest, by rw [hresult, List.append_assoc]; rfl, by simp [hlen], ?_⟩
        intro j found hj
        cases j with
        | zero =>
          cases hj
          exact hfound
        | succ j =>
          have hrec := hall j found hj
          rwa [Nat.add_right_comm] at hrec
    · intro h
      obtain ⟨rest, hresult, hlen, hall⟩ := h
      cases rest with
      | nil => simp at hlen
      | cons segment rest =>
        refine ⟨some segment, hall 0 segment rfl, ih.mpr ⟨rest, ?_, ?_, ?_⟩⟩
        · rw [hresult, List.append_assoc]
          rfl
        · simpa using hlen
        · intro j found hj
          have hrec := hall (j + 1) found hj
          rwa [← Nat.add_assoc, Nat.add_right_comm] at hrec

/-- What is known of the entry of a header that is loaded. -/
structure EntryOf (z : Zlib) (fresh : FreshBuffers) (img : List Byte) (i : Nat) (phdr : ELFPhdr32)
    (info : SegmentInfo) (segment : DecryptedSegment) : Prop where
  compressed : info.compression = 2 → ∃ source out,
    bufRead img info.offset.toNat info.length.toNat = .ok source ∧
      z.uncompress source phdr.pFilesz.toNat = some out ∧
      segment.segmentLength = out.length ∧ segment.data.take segment.segmentLength = out
  plain : info.compression ≠ 2 → segment.segmentLength = phdr.pFilesz.toNat ∧
    segment.data = (fresh i phdr.pFilesz.toNat).val

/-- One round on a header that is loaded. -/
theorem decryptSegment_ok {i : Nat} {phdr : ELFPhdr32} {info : SegmentInfo}
    {segment : DecryptedSegment}
    (hphdr : readELFPhdr32 img (phdrOffset + 0x20 * i) = .ok phdr)
    (hinfo : readSegmentInfo img (sectionInfoOffset + 0x20 * i) = .ok info)
    (hload : phdr.pType = PT_LOAD ∨ phdr.pType = PT_SCE_RELA)
    (h : decryptSegment z fresh img phdrOffset sectionInfoOffset i = .ok (some segment)) :
    EntryOf z fresh img i phdr info segment := by
  have htype : ¬ (phdr.pType ≠ PT_LOAD ∧ phdr.pType ≠ PT_SCE_RELA) := by tauto
  obtain ⟨_, hphdr', h⟩ := bind_ok.mp h
  rw [hphdr] at hphdr'
  cases hphdr'
  simp only [if_neg htype] at h
  obtain ⟨_, hinfo', h⟩ := bind_ok.mp h
  rw [hinfo] at hinfo'
  cases hinfo'
  split at h
  · cases h
  · split at h
    · rename_i hcomp
      obtain ⟨source, hsource, h⟩ := bind_ok.mp h
      cases hout : z.uncompress source phdr.pFilesz.toNat with
      | none =>
        rw [hout] at h
        cases h
      | some out =>
        rw [hout] at h
        cases h
        refine ⟨fun _ => ⟨source, out, hsource, hout, rfl, ?_⟩, fun hne => absurd hcomp hne⟩
        simp [patch]
    · rename_i hcomp
      cases h
      exact ⟨fun heq => absurd heq hcomp, fun _ => ⟨rfl, rfl⟩⟩

/-- Whether a round succeeds does not depend on what the fresh buffers contain. -/
theorem decryptSegment_fresh (fresh' : FreshBuffers) {i : Nat} {segment : DecryptedSegment}
    (h : decryptSegment z fresh img phdrOffset sectionInfoOffset i = .ok (some segment)) :
    ∃ segment', decryptSegment z fresh' img phdrOffset sectionInfoOffset i =
      .ok (some segment') := by
  obtain ⟨phdr, hphdr, h⟩ := bind_ok.mp h
  rw [decryptSegment, hphdr, ok_bind]
  split at h
  · rename_i htype
    exact ⟨_, if_pos htype⟩
  · rename_i htype
    obtain ⟨info, hinfo, h⟩ := bind_ok.mp h
    simp only [if_neg htype, hinfo, ok_bind]
    split at h
    · cases h
    · rename_i hplain
      rw [if_neg hplain]
      split at h
      · rename_i hcomp
        obtain ⟨source, hsource, h⟩ := bind_ok.mp h
        cases hout : z.uncompress source phdr.pFilesz.toNat with
        | none =>
          rw [hout] at h
          cases h
        | some out =>
          rw [if_pos hcomp, hsource, ok_bind, hout]
          exact ⟨_, rfl⟩
      · rename_i hcomp
        exact ⟨_, if_neg hcomp⟩

/-- A decoded file: the header, the ELF header, and a round for each program header. -/
theorem decryptSelfData_ok {self : SELFProgramData}
    (h : decryptSelfData z fresh img = .ok (some self)) :
    ∃ hdr ehdr, readSCEHeader img = .ok hdr ∧
      readELFHdr32 img hdr.elfOffset.toNat = .ok ehdr ∧
      self.segments.length = ehdr.ePhnum.toNat ∧
      ∀ i segment, self.segments[i]? = some segment →
        decryptSegment z fresh img hdr.phdrOffset.toNat hdr.sectionInfoOffset.toNat i =
          .ok (some segment) := by
  obtain ⟨hdr, hhdr, h⟩ := bind_ok.mp h
  obtain ⟨ehdr, hehdr, h⟩ := bind_ok.mp h
  split at h
  · cases h
  · obtain ⟨found, hfound, h⟩ := bind_ok.mp h
    cases found with
    | none => cases h
    | some segments =>
      cases h
      obtain ⟨rest, hresult, hlen, hall⟩ := decryptSegments_ok.mp hfound
      refine ⟨hdr, ehdr, hhdr, hehdr, ?_, fun i segment hi => ?_⟩
      · rw [hresult]
        exact hlen
      · rw [hresult] at hi
        have hrec := hall i segment hi
        rwa [Nat.zero_add] at hrec

theorem decryptSegments_fresh (fresh' : FreshBuffers) (segments' : List DecryptedSegment)
    {i n : Nat} {segments result : List DecryptedSegment}
    (h : decryptSegments z fresh img phdrOffset sectionInfoOffset i n segments =
      .ok (some result)) :
    ∃ result', decryptSegments z fresh' img phdrOffset sectionInfoOffset i n segments' =
      .ok (some result') := by
  induction n generalizing i segments segments' with
  | zero => exact ⟨_, rfl⟩
  | succ n ih =>
    obtain ⟨found, hfound, hrest⟩ := bind_ok.mp h
    cases found with
    | none => cases hrest
    | some segment =>
      obtain ⟨segment', hsegment'⟩ := decryptSegment_fresh fresh' hfound
      rw [decryptSegments, hsegment', ok_bind]
      exact ih (segments' ++ [segment']) hrest

theorem decryptSelfData_fresh (fresh' : FreshBuffers) {self : SELFProgramData}
    (h : decryptSelfData z fresh img = .ok (some self)) :
    ∃ self', decryptSelfData z fresh' img = .ok (some self') := by
  obtain ⟨hdr, hhdr, h⟩ := bind_ok.mp h
  obtain ⟨ehdr, hehdr, h⟩ := bind_ok.mp h
  split at h
  · cases h
  · rename_i htype
    obtain ⟨found, hfound, h⟩ := bind_ok.mp h
    cases found with
    | none => cases h
    | some segments =>
      obtain ⟨result', hresult'⟩ := decryptSegments_fresh fresh' [] hfound
      rw [decryptSelfData, hhdr, ok_bind, hehdr, ok_bind, if_neg htype, hresult', ok_bind]
      exact ⟨_, rfl⟩

/-- The entry of a header that is loaded. -/
theorem HeaderAt.entry {i : Nat} {phdr : ELFPhdr32} {info : SegmentInfo}
    (h : HeaderAt img i phdr info) {self : SELFProgramData}
    (hok : decryptSelfData z fresh img = .ok (some self)) :
    ∃ segment, self.segments[i]? = some segment ∧ EntryOf z fresh img i phdr info segment := by
  obtain ⟨hdr, ehdr, hhdr, hehdr, hi, hphdr, hinfo⟩ := h.exists_header
  obtain ⟨hdr', ehdr', hhdr', hehdr', hlen, hall⟩ := decryptSelfData_ok hok
  rw [hhdr] at hhdr'
  cases hhdr'
  rw [hehdr] at hehdr'
  cases hehdr'
  have hsegment := List.getElem?_eq_getElem (hlen ▸ hi : i < self.segments.length)
  exact ⟨_, hsegment, decryptSegment_ok hphdr hinfo h.loaded (hall i _ hsegment)⟩

/-- Buffers that are filled with one byte. -/
def filledWith (b : Byte) : FreshBuffers := fun _ n => ⟨List.replicate n b, List.length_replicate⟩

/-- Where the entries are the segments of the file, a compressed one unpacks to its file size. -/
theorem HeaderAt.unpacked_length (hz : z.Documented) {i : Nat} {phdr : ELFPhdr32}
    {info : SegmentInfo} (h : HeaderAt img i phdr info) {self : SELFProgramData}
    (hok : decryptSelfData z fresh img = .ok (some self)) (hdec : DecodesSegments z img)
    (hcomp : info.compression = 2) {source out : List Byte}
    (hsource : bufRead img info.offset.toNat info.length.toNat = .ok source)
    (hout : z.decompression source = some out) : out.length = phdr.pFilesz.toNat := by
  obtain ⟨segment, hsegment, hd⟩ := hdec fresh self hok i phdr info h
  obtain ⟨segment', hsegment', hcompressed, _⟩ := h.entry hok
  rw [hsegment] at hsegment'
  cases hsegment'
  obtain ⟨source', out', hsource', hout', hlen, _⟩ := hcompressed hcomp
  rw [hsource] at hsource'
  cases hsource'
  have heq := (hz _ _ _ hout').1
  rw [hout] at heq
  cases heq
  rw [← hlen, hd.length]

/-- Where the entries are the segments of the file, a plain one has in the file what a fresh
buffer happens to hold. -/
theorem HeaderAt.plain_eq_fill {i : Nat} {phdr : ELFPhdr32} {info : SegmentInfo}
    (h : HeaderAt img i phdr info) {self : SELFProgramData}
    (hok : decryptSelfData z fresh img = .ok (some self)) (hdec : DecodesSegments z img)
    (hcomp : info.compression = 1) (b : Byte) :
    bufRead img info.offset.toNat info.length.toNat =
      .ok (List.replicate phdr.pFilesz.toNat b) := by
  have hne : info.compression ≠ 2 := by rw [hcomp]; decide
  obtain ⟨self', hok'⟩ := decryptSelfData_fresh (filledWith b) hok
  obtain ⟨segment, hsegment, hd⟩ := hdec _ self' hok' i phdr info h
  obtain ⟨segment', hsegment', _, hplain⟩ := h.entry hok'
  rw [hsegment] at hsegment'
  cases hsegment'
  obtain ⟨hlen, hdata⟩ := hplain hne
  have hread := hd.plain hcomp
  rw [hdata, hlen, filledWith, List.take_of_length_le (by simp)] at hread
  exact hread

/-- Two contents of the fresh buffer cannot both be the bytes of the file. -/
theorem HeaderAt.plain_empty {i : Nat} {phdr : ELFPhdr32} {info : SegmentInfo}
    (h : HeaderAt img i phdr info) {self : SELFProgramData}
    (hok : decryptSelfData z fresh img = .ok (some self)) (hdec : DecodesSegments z img)
    (hcomp : info.compression = 1) : phdr.pFilesz = 0 ∧ info.length = 0 := by
  have hfill := h.plain_eq_fill hok hdec hcomp
  have hempty : phdr.pFilesz.toNat = 0 := by
    have hsame : List.replicate phdr.pFilesz.toNat 0#8 = List.replicate phdr.pFilesz.toNat 1#8 :=
      Except.ok.inj ((hfill 0).symm.trans (hfill 1))
    rcases Nat.eq_zero_or_pos phdr.pFilesz.toNat with hzero | hpos
    · exact hzero
    · have hhead := congrArg (fun l => l[0]?) hsame
      simp [hpos] at hhead
  have hlen := bufRead_length (hfill 0)
  rw [List.length_replicate, hempty] at hlen
  exact ⟨BitVec.eq_of_toNat_eq hempty, BitVec.eq_of_toNat_eq hlen.symm⟩

/-- Of matching sizes, every entry is its segment of the file. -/
theorem FileSizesMatch.decodes (hz : z.Documented) (hsizes : FileSizesMatch z img) :
    DecodesSegments z img := by
  intro fresh self hok i phdr info h
  obtain ⟨segment, hsegment, hcompressed, hplain⟩ := h.entry hok
  obtain ⟨hcomp2, hcomp1⟩ := hsizes i phdr info h
  refine ⟨segment, hsegment, ?_, ?_, ?_⟩
  · by_cases hcomp : info.compression = 2
    · obtain ⟨source, out, hsource, hout, hlen, _⟩ := hcompressed hcomp
      rw [hlen, hcomp2 hcomp source out hsource (hz _ _ _ hout).1]
    · exact (hplain hcomp).1
  · intro hcomp
    obtain ⟨source, out, hsource, hout, _, hdata⟩ := hcompressed hcomp
    exact ⟨source, hsource, hdata ▸ (hz _ _ _ hout).1⟩
  · intro hcomp
    obtain ⟨hfilesz, hlength⟩ := hcomp1 hcomp
    have hne : info.compression ≠ 2 := by rw [hcomp]; decide
    rw [(hplain hne).1, hfilesz, hlength]
    exact bufRead_zero img info.offset.toNat

/-- Where `decrypt_self_data` succeeds, its entries are the segments of the file exactly
when every compressed segment unpacks to its file size and no plain segment has bytes. -/
theorem decodesSegments_iff (hz : z.Documented) {self : SELFProgramData}
    (hok : decryptSelfData z fresh img = .ok (some self)) :
    DecodesSegments z img ↔ FileSizesMatch z img := by
  constructor
  · intro hdec i phdr info hat
    exact ⟨fun hcomp source out => hat.unpacked_length hz hok hdec hcomp, hat.plain_empty hok hdec⟩
  · intro hsizes
    exact hsizes.decodes hz

end Lemmas

/-- A relocatable file with one `PT_LOAD` segment, whose bytes end the file. -/
def oneSegmentFile (filesz compression : Nat) (content : List Byte) : List Byte :=
  List.replicate 0x40 0 ++ encode 8 0x60 ++ encode 8 0x94 ++ encode 8 0 ++ encode 8 0xB4 ++
    List.replicate 0x10 0 ++ encode 2 0xFE04 ++ List.replicate 6 0 ++ encode 4 0 ++
    List.replicate 0x10 0 ++ encode 2 1 ++ List.replicate 6 0 ++
    encode 4 1 ++ encode 4 0 ++ encode 4 0x81000000 ++ encode 4 0 ++ encode 4 filesz ++
    encode 4 filesz ++ List.replicate 8 0 ++
    encode 8 0xD4 ++ encode 8 content.length ++ encode 8 compression ++ encode 8 2 ++ content

/-- The zlib stream of the one byte `0x41`. -/
def streamOfA : List Byte :=
  [0x78#8, 0x9C#8, 0x73#8, 0x04#8, 0x00#8, 0x00#8, 0x42#8, 0x00#8, 0x42#8]

/-- zlib on that stream. -/
def zlibOfA : Zlib where
  uncompress source destLen := if source = streamOfA ∧ 1 ≤ destLen then some [0x41#8] else none
  decompression source := if source = streamOfA then some [0x41#8] else none

theorem zlibOfA_documented : zlibOfA.Documented := by
  intro source destLen out h
  simp only [zlibOfA] at h ⊢
  split at h
  · rename_i hstream
    cases h
    exact ⟨if_pos hstream.1, hstream.2⟩
  · cases h

set_option maxRecDepth 8000 in
/-- A compressed segment of the right size. -/
theorem decodesSegments_iff_compressed :
    DecodesSegments zlibOfA (oneSegmentFile 1 2 streamOfA) ↔
      FileSizesMatch zlibOfA (oneSegmentFile 1 2 streamOfA) := by
  obtain ⟨self, hok⟩ : ∃ self, decryptSelfData zlibOfA (filledWith 0)
      (oneSegmentFile 1 2 streamOfA) = .ok (some self) := ⟨_, rfl⟩
  exact decodesSegments_iff zlibOfA_documented hok

set_option maxRecDepth 8000 in
/-- The byte of a plain segment is not copied: the entry has what the buffer had. -/
theorem decryptSelfData_skips_plain :
    ¬ DecodesSegments zlibOfA (oneSegmentFile 1 1 [0x41#8]) := by
  intro h
  obtain ⟨self, hok, hdata⟩ : ∃ self, decryptSelfData zlibOfA (filledWith 0)
      (oneSegmentFile 1 1 [0x41#8]) = .ok (some self) ∧
        ∀ segment, self.segments[0]? = some segment →
          segment.data.take segment.segmentLength = [0x00#8] := by
    refine ⟨_, rfl, fun segment hs => ?_⟩
    cases hs
    rfl
  obtain ⟨phdr, info, hat, hcomp, hraw⟩ : ∃ phdr info,
      HeaderAt (oneSegmentFile 1 1 [0x41#8]) 0 phdr info ∧ info.compression = 1 ∧
        bufRead (oneSegmentFile 1 1 [0x41#8]) info.offset.toNat info.length.toNat =
          .ok [0x41#8] :=
    ⟨_, _, ⟨⟨_, _, rfl, rfl, by decide, rfl, rfl⟩, .inl rfl⟩, rfl, rfl⟩
  obtain ⟨segment, hsegment, hd⟩ := h _ self hok 0 phdr info hat
  have hread := hd.plain hcomp
  rw [hraw, hdata segment hsegment] at hread
  cases hread

end Betavita.Loader
