import Betavita.Loader.SegmentIndex

/-!
# self_loader.cpp — what the relocation walk reads

`perform_segment_relocation` is bounded by the file size in the header and looks only at
where an entry starts, while the bytes that are valid are the `segment_length` that
decompression left. `WalksTo` follows the walk entry by entry; the entries it reads are in
bounds when it stops inside the valid bytes, or when they are all of the file size and a
whole number of entries.
-/

namespace Betavita.Loader

open Memory ByteBuffer

/-! ## The buffers of decoded segments -/

section Decode

variable {z : Zlib} {fresh : FreshBuffers} {img : List Byte} {phdrOffset sectionInfoOffset : Nat}

/-- The buffer of a segment has its file size, and no more than that of it is valid. -/
structure DecryptedSegment.HasBuffer (seg : DecryptedSegment) : Prop where
  length : seg.data.length = seg.phdr.pFilesz.toNat
  valid : seg.segmentLength ≤ seg.phdr.pFilesz.toNat

theorem decryptSegment_hasBuffer (hz : z.Documented) {i : Nat} {segment : DecryptedSegment}
    (h : decryptSegment z fresh img phdrOffset sectionInfoOffset i = .ok (some segment)) :
    segment.HasBuffer := by
  obtain ⟨phdr, _, h⟩ := bind_ok.mp h
  have hfresh := (fresh i phdr.pFilesz.toNat).property
  split at h
  · cases h
    exact ⟨rfl, Nat.le_refl _⟩
  · obtain ⟨info, _, h⟩ := bind_ok.mp h
    split at h
    · cases h
    · split at h
      · obtain ⟨source, _, h⟩ := bind_ok.mp h
        cases hout : z.uncompress source phdr.pFilesz.toNat with
        | none =>
          rw [hout] at h
          cases h
        | some out =>
          rw [hout] at h
          cases h
          have hle := (hz _ _ _ hout).2
          refine ⟨?_, hle⟩
          show (patch (fresh i phdr.pFilesz.toNat).val 0 out).length = phdr.pFilesz.toNat
          rw [patch_length (by omega), hfresh]
      · cases h
        exact ⟨hfresh, Nat.le_refl _⟩

theorem decryptSelfData_hasBuffer (hz : z.Documented) {self : SELFProgramData}
    (hok : decryptSelfData z fresh img = .ok (some self)) {seg : DecryptedSegment}
    (hseg : seg ∈ self.segments) : seg.HasBuffer := by
  obtain ⟨_, _, _, _, _, hall⟩ := decryptSelfData_ok hok
  obtain ⟨i, hi⟩ := List.mem_iff_getElem?.mp hseg
  exact decryptSegment_hasBuffer hz (hall i seg hi)

end Decode

/-! ## The walk -/

section Walk

variable (segments : List DecryptedSegment) (seg : DecryptedSegment) (maps : List MemoryMap)

/-- The byte that has the format of the entry at `off`. -/
def formatAt (off : Nat) : Nat := entryFormat (slice seg.data off 1)

def entryAt (off : Nat) : EntryFormat0 := .ofBytes (slice seg.data off 12)

/-- The loop gets to the byte `off` of the table: it has decoded the entries before it, and
their relocations were applied. -/
inductive WalksTo : Nat → List MemoryMap → Prop
  | start : WalksTo 0 maps
  | entry {off : Nat} {maps₁ maps₂ : List MemoryMap} {relUnknown bytes : List Byte} :
      WalksTo off maps₁ → off < seg.phdr.pFilesz.toNat →
      bufRead seg.data off 1 = .ok relUnknown → entryFormat relUnknown = 0 →
      bufRead seg.data off 12 = .ok bytes →
      applyEntry segments (.ofBytes bytes) maps₁ = .ok (true, maps₂) →
      WalksTo (off + 12) maps₂

/-- The loop looks at the format of an entry at `off`. -/
def LooksAt (off : Nat) : Prop :=
  (∃ maps', WalksTo segments seg maps off maps') ∧ off < seg.phdr.pFilesz.toNat

/-- The loop takes what is at `off` for an entry, and reads its twelve bytes. -/
def DecodesAt (off : Nat) : Prop := LooksAt segments seg maps off ∧ formatAt seg off = 0

/-- Every format and every entry that the loop reads is in the valid bytes, and of a number of
valid bytes that is not a whole number of entries the pass returns `false`. -/
structure ReadsInBounds : Prop where
  formats : ∀ off, LooksAt segments seg maps off → off < seg.segmentLength
  entries : ∀ off, DecodesAt segments seg maps off → off + 12 ≤ seg.segmentLength
  whole : seg.segmentLength % 12 ≠ 0 →
    ∃ maps', performSegmentRelocation segments seg 0 maps = .ok (false, maps')

/-- Entry `k` is decoded and applied. -/
structure Passes (k : Nat) : Prop where
  format : formatAt seg (12 * k) = 0
  fits : Fits segments 4#32 maps (entryAt seg (12 * k))
  accepts : Accepts segments 4#32 maps (entryAt seg (12 * k))

/-- Entry `k` makes the pass return `false`: by its format, or by a relocation that is refused
before a patch leaves its map. -/
def Refused (k : Nat) : Prop :=
  formatAt seg (12 * k) ≠ 0 ∨
    Fits segments 4#32 maps (entryAt seg (12 * k)) ∧
      ¬ Accepts segments 4#32 maps (entryAt seg (12 * k))

/-- The walk ends inside the valid bytes: they are all of the file size and a whole number of
entries; or one of the whole entries ends it, by a refusal if there is a part of an entry
behind them; or it gets to that part and the part does not have format `0`. -/
inductive EndsInside : Prop
  | all (hlength : seg.segmentLength = seg.phdr.pFilesz.toNat)
      (hwhole : seg.segmentLength % 12 = 0) : EndsInside
  | stopped {k : Nat} (hk : k < seg.segmentLength / 12)
      (hbefore : ∀ j < k, Passes segments seg maps j) (hstop : ¬ Passes segments seg maps k)
      (hrefused : seg.segmentLength % 12 = 0 ∨ Refused segments seg maps k) : EndsInside
  | partialEntry (hbefore : ∀ j < seg.segmentLength / 12, Passes segments seg maps j)
      (hpart : seg.segmentLength % 12 ≠ 0)
      (hformat : formatAt seg (12 * (seg.segmentLength / 12)) ≠ 0) : EndsInside

end Walk

section Lemmas

variable {segments : List DecryptedSegment} {seg : DecryptedSegment} {maps maps' : List MemoryMap}

theorem bufRead_inside {off n : Nat} (h : off + n ≤ seg.data.length) :
    bufRead seg.data off n = .ok (slice seg.data off n) := if_pos (.inr h)

/-- From where the walk has got to, the loop goes on as it began. -/
theorem WalksTo.run {off : Nat} (h : WalksTo segments seg maps off maps') :
    performSegmentRelocation segments seg 0 maps =
      performSegmentRelocation segments seg off maps' := by
  induction h with
  | start => rfl
  | entry _ hlt hformat hzero hbytes happly ih =>
    rw [ih, performSegmentRelocation, if_pos hlt, hformat, ok_bind, if_pos hzero, hbytes, ok_bind,
      happly]
    rfl

theorem applyEntry_sameMaps {e : EntryFormat0} {b : Bool}
    (h : applyEntry segments e maps = .ok (b, maps')) : SameMaps maps maps' := by
  rw [applyEntry_eq] at h
  exact patchEntry_sameMaps h

theorem Passes.congr (hs : SameMaps maps maps') {k : Nat} :
    Passes segments seg maps k ↔ Passes segments seg maps' k :=
  ⟨fun h => ⟨h.format, (Fits.congr hs).mp h.fits, (Accepts.congr hs).mp h.accepts⟩,
    fun h => ⟨h.format, (Fits.congr hs).mpr h.fits, (Accepts.congr hs).mpr h.accepts⟩⟩

/-- An entry that was applied is one that passes. -/
theorem applyEntry_passes {k : Nat} (hformat : formatAt seg (12 * k) = 0)
    (h : applyEntry segments (entryAt seg (12 * k)) maps = .ok (true, maps')) :
    Passes segments seg maps k := by
  rw [applyEntry_eq] at h
  by_cases hf : Fits segments 4#32 maps (entryAt seg (12 * k))
  · obtain ⟨b, maps₁, hok, _, hb⟩ := patchEntry_ok hf
    cases hok.symm.trans h
    exact ⟨hformat, hf, hb.mp rfl⟩
  · rw [patchEntry_error hf] at h
    cases h

/-- The walk moves by entries that pass. -/
theorem WalksTo.passes {off : Nat} (h : WalksTo segments seg maps off maps') :
    SameMaps maps maps' ∧ ∃ k, off = 12 * k ∧ ∀ j < k, Passes segments seg maps j := by
  induction h with
  | start => exact ⟨.refl _, 0, rfl, by simp⟩
  | @entry off maps₁ maps₂ relUnknown bytes _ _ hread hzero hbytes happly ih =>
    obtain ⟨hsame, k, rfl, hpasses⟩ := ih
    refine ⟨hsame.trans (applyEntry_sameMaps happly), k + 1, by omega, fun j hj => ?_⟩
    rcases Nat.lt_succ_iff_lt_or_eq.mp hj with hlt | rfl
    · exact hpasses j hlt
    · rw [bufRead_eq hread] at hzero
      rw [bufRead_eq hbytes] at happly
      exact (Passes.congr hsame).mpr (applyEntry_passes hzero happly)

/-- Over whole entries that pass, the walk goes on. -/
theorem WalksTo.of_passes (hbuf : seg.HasBuffer) {k : Nat}
    (hk : 12 * k ≤ seg.phdr.pFilesz.toNat) (hpasses : ∀ j < k, Passes segments seg maps j) :
    ∃ maps', SameMaps maps maps' ∧ WalksTo segments seg maps (12 * k) maps' := by
  have hlen := hbuf.length
  induction k with
  | zero => exact ⟨maps, .refl _, .start⟩
  | succ k ih =>
    obtain ⟨maps₁, hsame, hwalk⟩ := ih (by omega) fun j hj => hpasses j (by omega)
    obtain ⟨hformat, hfits, haccepts⟩ := (Passes.congr hsame).mp (hpasses k (by omega))
    obtain ⟨b, maps₂, hok, hsame₂, hb⟩ := patchEntry_ok hfits
    rw [hb.mpr haccepts, ← applyEntry_eq] at hok
    have hnext : WalksTo segments seg maps (12 * k + 12) maps₂ :=
      .entry hwalk (by omega) (bufRead_inside (by omega)) hformat (bufRead_inside (by omega)) hok
    exact ⟨maps₂, hsame.trans hsame₂, hnext⟩

/-- The walk is never more than an entry behind the end of the table. -/
theorem WalksTo.bounded {off : Nat} (h : WalksTo segments seg maps off maps') :
    off < seg.phdr.pFilesz.toNat + 12 := by
  cases h with
  | start => omega
  | entry _ hlt _ _ _ _ => omega

/-- What the loop looks at is an entry behind entries that pass. -/
theorem LooksAt.index {off : Nat} (h : LooksAt segments seg maps off) :
    ∃ k, off = 12 * k ∧ 12 * k < seg.phdr.pFilesz.toNat ∧
      ∀ j < k, Passes segments seg maps j := by
  obtain ⟨⟨maps', hwalk⟩, hlt⟩ := h
  obtain ⟨_, k, rfl, hpasses⟩ := hwalk.passes
  exact ⟨k, rfl, hlt, hpasses⟩

/-- The walk that gets to an entry of another format returns `false`. -/
theorem WalksTo.refused_format (hbuf : seg.HasBuffer) {off : Nat}
    (h : WalksTo segments seg maps off maps') (hlt : off < seg.phdr.pFilesz.toNat)
    (hformat : formatAt seg off ≠ 0) :
    performSegmentRelocation segments seg 0 maps = .ok (false, maps') := by
  have hlen := hbuf.length
  rw [formatAt] at hformat
  rw [h.run, performSegmentRelocation, if_pos hlt, bufRead_inside (by omega), ok_bind,
    if_neg hformat]
  rfl

/-- At a whole entry that does not pass the pass ends, with `false` if it is refused. -/
theorem WalksTo.stopped (hbuf : seg.HasBuffer) {k : Nat} (hsame : SameMaps maps maps')
    (h : WalksTo segments seg maps (12 * k) maps')
    (hinside : 12 * k + 12 ≤ seg.phdr.pFilesz.toNat) (hstop : ¬ Passes segments seg maps k) :
    (∃ maps₁, performSegmentRelocation segments seg 0 maps = .ok (false, maps₁)) ↔
      Refused segments seg maps k := by
  have hlen := hbuf.length
  by_cases hformat : formatAt seg (12 * k) = 0
  · have hrun : performSegmentRelocation segments seg 0 maps =
        (applyEntry segments (entryAt seg (12 * k)) maps' >>= fun r =>
          if !r.1 then .ok (false, r.2)
          else performSegmentRelocation segments seg (12 * k + 12) r.2) := by
      rw [h.run, performSegmentRelocation, if_pos (by omega), bufRead_inside (by omega), ok_bind]
      rw [formatAt] at hformat
      rw [if_pos hformat, bufRead_inside (by omega), ok_bind]
      rfl
    rw [hrun, applyEntry_eq]
    by_cases hfits : Fits segments 4#32 maps' (entryAt seg (12 * k))
    · have hfits' := (Fits.congr hsame).mpr hfits
      have hno : ¬ Accepts segments 4#32 maps (entryAt seg (12 * k)) :=
        fun ha => hstop ⟨hformat, hfits', ha⟩
      obtain ⟨b, maps₁, hok, _, hb⟩ := patchEntry_ok hfits
      have hfalse : b = false := by
        by_contra htrue
        exact hno ((Accepts.congr hsame).mpr (hb.mp (by simpa using htrue)))
      subst hfalse
      rw [hok]
      exact iff_of_true ⟨maps₁, rfl⟩ (.inr ⟨hfits', hno⟩)
    · rw [patchEntry_error hfits]
      refine iff_of_false ?_ ?_
      · rintro ⟨maps₁, hrun⟩
        cases hrun
      · rintro (hne | ⟨hfits', _⟩)
        · exact hne hformat
        · exact hfits ((Fits.congr hsame).mp hfits')
  · exact iff_of_true ⟨maps', h.refused_format hbuf (by omega) hformat⟩ (.inl hformat)

/-- A table of which the walk reads only what is valid ends it inside. -/
theorem ReadsInBounds.endsInside (hbuf : seg.HasBuffer) (h : ReadsInBounds segments seg maps) :
    EndsInside segments seg maps := by
  have hvalid := hbuf.valid
  by_cases hpasses : ∀ j < seg.segmentLength / 12, Passes segments seg maps j
  · obtain ⟨maps', _, hwalk⟩ := WalksTo.of_passes hbuf (by omega) hpasses
    by_cases hend : 12 * (seg.segmentLength / 12) < seg.phdr.pFilesz.toNat
    · have hlook : LooksAt segments seg maps (12 * (seg.segmentLength / 12)) :=
        ⟨⟨maps', hwalk⟩, hend⟩
      have hlt := h.formats _ hlook
      refine .partialEntry hpasses (by omega) fun hformat => ?_
      have hentry := h.entries _ ⟨hlook, hformat⟩
      omega
    · exact .all (by omega) (by omega)
  · -- the first of the whole entries that does not pass
    push Not at hpasses
    classical
    have hleast := Nat.find_spec hpasses
    have hbefore : ∀ j < Nat.find hpasses, Passes segments seg maps j := by
      intro j hj
      by_contra hno
      exact Nat.find_min hpasses hj ⟨by omega, hno⟩
    refine .stopped hleast.1 hbefore hleast.2 ?_
    by_cases hwhole : seg.segmentLength % 12 = 0
    · exact .inl hwhole
    · obtain ⟨maps', hsame, hwalk⟩ := WalksTo.of_passes hbuf (by omega) hbefore
      exact .inr ((hwalk.stopped hbuf hsame (by omega) hleast.2).mp (h.whole hwhole))

/-- A walk that ends inside has read only what is valid. -/
theorem EndsInside.readsInBounds (hbuf : seg.HasBuffer) (h : EndsInside segments seg maps) :
    ReadsInBounds segments seg maps := by
  have hvalid := hbuf.valid
  cases h with
  | all hlength hwhole =>
    refine ⟨fun off hlook => ?_, fun off hdecode => ?_, fun hpart => absurd hwhole hpart⟩
    · have hlt := hlook.2
      omega
    · obtain ⟨k, rfl, hlt, _⟩ := hdecode.1.index
      omega
  | @stopped k hk hbefore hstop hrefused =>
    have hinside : ∀ off, LooksAt segments seg maps off → off + 12 ≤ seg.segmentLength := by
      intro off hlook
      obtain ⟨i, rfl, _, hpasses⟩ := hlook.index
      have hle : i ≤ k := by
        by_contra hlt
        exact hstop (hpasses k (by omega))
      omega
    refine ⟨fun off hlook => ?_, fun off hdecode => hinside off hdecode.1, fun hpart => ?_⟩
    · have := hinside off hlook
      omega
    · obtain ⟨maps', hsame, hwalk⟩ := WalksTo.of_passes hbuf (by omega) hbefore
      exact (hwalk.stopped hbuf hsame (by omega) hstop).mpr (hrefused.resolve_left hpart)
  | partialEntry hbefore hpart hformat =>
    have hindex : ∀ off, LooksAt segments seg maps off →
        ∃ i, off = 12 * i ∧ i ≤ seg.segmentLength / 12 := by
      intro off hlook
      obtain ⟨i, rfl, _, hpasses⟩ := hlook.index
      refine ⟨i, rfl, ?_⟩
      by_contra hlt
      exact hformat (hpasses (seg.segmentLength / 12) (by omega)).format
    refine ⟨fun off hlook => ?_, fun off hdecode => ?_, fun _ => ?_⟩
    · obtain ⟨i, rfl, hi⟩ := hindex off hlook
      omega
    · obtain ⟨i, rfl, hi⟩ := hindex off hdecode.1
      rcases Nat.lt_or_eq_of_le hi with hlt | rfl
      · omega
      · exact absurd hdecode.2 hformat
    · obtain ⟨maps', _, hwalk⟩ := WalksTo.of_passes hbuf (by omega) hbefore
      exact ⟨maps', hwalk.refused_format hbuf (by omega) hformat⟩

/-- Relocation tables: the walk over a table of a decoded image ends, and what it reads of the
table is in bounds, a part of an entry being refused, exactly when it ends inside the valid
bytes. -/
theorem relocationTable_inBounds_iff {z : Zlib} {fresh : FreshBuffers} {img : List Byte}
    {self : SELFProgramData} (hz : z.Documented)
    (hok : decryptSelfData z fresh img = .ok (some self)) {seg : DecryptedSegment}
    (hseg : seg ∈ self.segments) (maps : List MemoryMap) :
    (∀ off maps', WalksTo self.segments seg maps off maps' → off < seg.phdr.pFilesz.toNat + 12) ∧
    (ReadsInBounds self.segments seg maps ↔ EndsInside self.segments seg maps) := by
  have hbuf := decryptSelfData_hasBuffer hz hok hseg
  exact ⟨fun _ _ hwalk => hwalk.bounded, fun h => h.endsInside hbuf, fun h => h.readsInBounds hbuf⟩

end Lemmas

/-! ### A table of one byte -/

/-- zlib on one stream, of one byte. -/
def zlibOfByte (stream : List Byte) (b : Byte) : Zlib where
  uncompress source destLen := if source = stream ∧ 1 ≤ destLen then some [b] else none
  decompression source := if source = stream then some [b] else none

theorem zlibOfByte_documented (stream : List Byte) (b : Byte) :
    (zlibOfByte stream b).Documented := by
  intro source destLen out h
  simp only [zlibOfByte] at h ⊢
  split at h
  · rename_i hstream
    cases h
    exact ⟨if_pos hstream.1, hstream.2⟩
  · cases h

/-- The zlib stream of the one byte `0x40`. -/
def streamOfAt : List Byte :=
  [0x78#8, 0x9C#8, 0x73#8, 0x00#8, 0x00#8, 0x00#8, 0x41#8, 0x00#8, 0x41#8]

/-- A file whose one segment is a compressed `PT_SCE_RELA` table. -/
def oneTableFile (filesz : Nat) (content : List Byte) : List Byte :=
  patch (oneSegmentFile filesz 2 content) 0x94 (encode 4 0x60000000)

/-- The table of the byte `b`. -/
def oneByteTable (b : Byte) : DecryptedSegment :=
  ⟨"program_segment_0", [b], 1, true, true,
    ⟨PT_SCE_RELA, 0, 0x81000000#32, 0, 1, 1, 0, 0⟩⟩

set_option maxRecDepth 8000 in
/-- The byte `0x41` has format `1`, and the table is refused. -/
theorem relocationTable_inBounds_format :
    ReadsInBounds [oneByteTable 0x41#8] (oneByteTable 0x41#8) [] := by
  have hok : decryptSelfData (zlibOfByte streamOfA 0x41#8) (filledWith 0)
      (oneTableFile 1 streamOfA) =
        .ok (some ⟨0, true, ET_SCE_RELEXEC, [oneByteTable 0x41#8]⟩) := rfl
  exact (relocationTable_inBounds_iff (zlibOfByte_documented _ _) hok List.mem_cons_self []).2.mpr
    (.partialEntry (fun j hj => absurd hj (by simp [oneByteTable])) (by decide) (by decide))

set_option maxRecDepth 8000 in
/-- The byte `0x40` has format `0`: the loop reads twelve bytes of it. -/
theorem relocationTable_reads_past :
    decryptSelfData (zlibOfByte streamOfAt 0x40#8) (filledWith 0) (oneTableFile 1 streamOfAt) =
        .ok (some ⟨0, true, ET_SCE_RELEXEC, [oneByteTable 0x40#8]⟩) ∧
      ¬ ReadsInBounds [oneByteTable 0x40#8] (oneByteTable 0x40#8) [] := by
  refine ⟨rfl, fun h => ?_⟩
  have hentry := h.entries 0 ⟨⟨⟨[], .start⟩, by decide⟩, by decide⟩
  exact absurd hentry (by decide)

end Betavita.Loader
