import Betavita.Loader.Elf
import Betavita.Loader.Relocation

/-!
# self_loader.cpp — relocation tables

`do_self_relocation_program_data` walks the bytes of every relocatable segment as
12-byte entries and applies up to two relocations for each. The walk is compared with
a left fold over the entries, whose parameter is the scale of the distance to the
second place: `2` in the reference, `4` in the code, which adds `dist2 * 2` twice.
-/

namespace Betavita.Loader

open Memory ByteBuffer

/-- `EntryFormat0`, a packed record of bit-fields. -/
structure EntryFormat0 where
  symbolSegment : BitVec 4
  code : Byte
  patchSegment : BitVec 4
  code2 : Byte
  dist2 : BitVec 4
  addend : Word
  offset : Word
deriving DecidableEq

/-- `EntryFormatUnknown::format`, a bit-field of the first byte. -/
def entryFormat (bytes : List Byte) : Nat := (field bytes 0 8 &&& 0xF#8).toNat

def EntryFormat0.ofBytes (bytes : List Byte) : EntryFormat0 :=
  let word : Word := field bytes 0 32
  { symbolSegment := (word >>> 4).setWidth 4
    code := (word >>> 8).setWidth 8
    patchSegment := (word >>> 16).setWidth 4
    code2 := (word >>> 20).setWidth 8
    dist2 := (word >>> 28).setWidth 4
    addend := field bytes 4 32
    offset := field bytes 8 32 }

section Walk

variable (segments : List DecryptedSegment)

/-- `symbol_address`. -/
def symbolAddress (fmt0 : EntryFormat0) : Word :=
  match segments[fmt0.symbolSegment.toNat]? with
  | some segment => segment.phdr.pVaddr
  | none => 0

/-- `patch_address`. -/
def patchAddress (fmt0 : EntryFormat0) : Word :=
  match segments[fmt0.patchSegment.toNat]? with
  | some segment => segment.phdr.pVaddr + fmt0.offset
  | none => 0

/-- The body of `case 0`; the flag is `false` for `return false`. -/
def applyEntry (fmt0 : EntryFormat0) (maps : List MemoryMap) :
    Except Trap (Bool × List MemoryMap) := do
  let symbol := symbolAddress segments fmt0
  let patch := patchAddress segments fmt0
  let (applied, maps) ← applyOneRelocation maps fmt0.code symbol fmt0.addend patch
  if !applied then return (false, maps)
  else if fmt0.code2 ≠ 0 then
    let patch := patch + fmt0.dist2.setWidth 32 * 2#32
    let (applied, maps) ←
      applyOneRelocation maps fmt0.code2 symbol fmt0.addend (patch + fmt0.dist2.setWidth 32 * 2#32)
    if !applied then return (false, maps)
    else return (true, maps)
  else return (true, maps)

/-- `perform_segment_relocation`, from the byte `programData` of the segment on. -/
def performSegmentRelocation (seg : DecryptedSegment) (programData : Nat)
    (maps : List MemoryMap) : Except Trap (Bool × List MemoryMap) :=
  if programData < seg.phdr.pFilesz.toNat then do
    let relUnknown ← bufRead seg.data programData 1
    if entryFormat relUnknown = 0 then
      let bytes ← bufRead seg.data programData 12
      let (applied, maps) ← applyEntry segments (.ofBytes bytes) maps
      if !applied then return (false, maps)
      else performSegmentRelocation seg (programData + 12) maps
    else return (false, maps)
  else .ok (true, maps)
termination_by seg.phdr.pFilesz.toNat - programData

def relocateSegments : List DecryptedSegment → List MemoryMap →
    Except Trap (Bool × List MemoryMap)
  | [], maps => .ok (true, maps)
  | i :: rest, maps =>
    if i.relocatable then do
      let (performed, maps) ← performSegmentRelocation segments i 0 maps
      if !performed then return (false, maps)
      else relocateSegments rest maps
    else relocateSegments rest maps

/-- `do_self_relocation_program_data`: the flag it returns and the memory. -/
def doSelfRelocationProgramData (data : SELFProgramData) (maps : List MemoryMap) :
    Except Trap (Bool × List MemoryMap) :=
  relocateSegments data.segments data.segments maps

/-! ## The reference -/

/-- `apply(code, S, A, P)`, then, if there is a second code, `apply(code2, S, A, P +
scale * dist2)`; it stops at the first of the two that is refused. -/
def patchEntry (scale : Word) (e : EntryFormat0) (maps : List MemoryMap) :
    Except Trap (Bool × List MemoryMap) := do
  let S := symbolAddress segments e
  let P := patchAddress segments e
  let (applied, maps) ← applyOneRelocation maps e.code S e.addend P
  if applied = true ∧ e.code2 ≠ 0 then
    applyOneRelocation maps e.code2 S e.addend (P + scale * e.dist2.setWidth 32)
  else return (applied, maps)

/-- The left fold over the entries. -/
def foldEntries (scale : Word) (es : List EntryFormat0) (maps : List MemoryMap) :
    Except Trap (List MemoryMap) :=
  es.foldlM (fun maps e => (patchEntry segments scale e maps).map Prod.snd) maps

/-- The code and the place are accepted, and those of the second patch if there is one. -/
structure Accepts (scale : Word) (maps : List MemoryMap) (e : EntryFormat0) : Prop where
  code : Implemented e.code
  place : Mapped maps (patchAddress segments e)
  second : e.code2 ≠ 0 →
    Implemented e.code2 ∧ Mapped maps (patchAddress segments e + scale * e.dist2.setWidth 32)

/-- The words that are patched lie in the buffers of their maps. -/
structure Fits (scale : Word) (maps : List MemoryMap) (e : EntryFormat0) : Prop where
  first : Implemented e.code → WordFits maps (patchAddress segments e)
  second : Implemented e.code → Mapped maps (patchAddress segments e) → e.code2 ≠ 0 →
    Implemented e.code2 → WordFits maps (patchAddress segments e + scale * e.dist2.setWidth 32)

/-- The entries are followed up to the first one that is refused. -/
def runEntries (scale : Word) : List EntryFormat0 → List MemoryMap →
    Except Trap (Bool × List MemoryMap)
  | [], maps => .ok (true, maps)
  | e :: es, maps => do
    let (applied, maps) ← patchEntry segments scale e maps
    if !applied then return (false, maps)
    else runEntries scale es maps

end Walk

/-! ## One entry -/

section Entry

variable {segments : List DecryptedSegment} {scale : Word} {maps maps' : List MemoryMap}
  {e : EntryFormat0}

/-- The code adds the distance twice. -/
theorem applyEntry_eq (e : EntryFormat0) (maps : List MemoryMap) :
    applyEntry segments e maps = patchEntry segments 4#32 e maps := by
  have hplace : patchAddress segments e + e.dist2.setWidth 32 * 2#32 + e.dist2.setWidth 32 * 2#32 =
      patchAddress segments e + 4#32 * e.dist2.setWidth 32 := by bv_omega
  unfold applyEntry patchEntry
  simp only [hplace]
  cases applyOneRelocation maps e.code (symbolAddress segments e) e.addend
    (patchAddress segments e) with
  | error trap => rfl
  | ok first =>
    obtain ⟨applied, maps₁⟩ := first
    simp only [ok_bind]
    cases applied with
    | false => rfl
    | true =>
      by_cases hcode2 : e.code2 = 0
      · simp [hcode2]
      · simp only [hcode2, ne_eq, not_false_eq_true, and_self, if_true, Bool.not_true,
          Bool.false_eq_true, if_false]
        cases applyOneRelocation maps₁ e.code2 (symbolAddress segments e) e.addend
          (patchAddress segments e + 4#32 * e.dist2.setWidth 32) with
        | error trap => rfl
        | ok second =>
          obtain ⟨applied₂, maps₂⟩ := second
          cases applied₂ <;> rfl

theorem Accepts.congr (h : SameMaps maps maps') :
    Accepts segments scale maps e ↔ Accepts segments scale maps' e := by
  have hm := h.mapped
  constructor
  · intro ha
    exact ⟨ha.code, (hm _).mp ha.place, fun hne => ⟨(ha.second hne).1, (hm _).mp (ha.second hne).2⟩⟩
  · intro ha
    exact ⟨ha.code, (hm _).mpr ha.place,
      fun hne => ⟨(ha.second hne).1, (hm _).mpr (ha.second hne).2⟩⟩

theorem Fits.congr (h : SameMaps maps maps') :
    Fits segments scale maps e ↔ Fits segments scale maps' e := by
  have hm := h.mapped
  have hf := h.wordFits
  constructor
  · intro ha
    exact ⟨fun hi => (hf _).mp (ha.first hi),
      fun hi hp hne hi2 => (hf _).mp (ha.second hi ((hm _).mpr hp) hne hi2)⟩
  · intro ha
    exact ⟨fun hi => (hf _).mpr (ha.first hi),
      fun hi hp hne hi2 => (hf _).mpr (ha.second hi ((hm _).mp hp) hne hi2)⟩

/-- An entry whose words fit is patched, or refused, as `Accepts` says. -/
theorem patchEntry_ok (hf : Fits segments scale maps e) :
    ∃ b maps', patchEntry segments scale e maps = .ok (b, maps') ∧ SameMaps maps maps' ∧
      (b = true ↔ Accepts segments scale maps e) := by
  unfold patchEntry
  by_cases hfirst : Implemented e.code ∧ Mapped maps (patchAddress segments e)
  · obtain ⟨hcode, hplace⟩ := hfirst
    obtain ⟨_, _, maps₁, _, _, _, hok⟩ := applyOneRelocation_ok
      (S := symbolAddress segments e) (A := e.addend) hcode hplace (hf.first hcode)
    have hsame := applyOneRelocation_sameMaps hok
    simp only [hok, ok_bind, true_and]
    by_cases hcode2 : e.code2 = 0
    · simp only [hcode2, ne_eq, not_true_eq_false, if_false]
      exact ⟨true, maps₁, rfl, hsame,
        fun _ => ⟨hcode, hplace, fun hne => absurd hcode2 hne⟩, fun _ => rfl⟩
    · simp only [hcode2, ne_eq, not_false_eq_true, if_true]
      by_cases hsecond : Implemented e.code2 ∧
          Mapped maps (patchAddress segments e + scale * e.dist2.setWidth 32)
      · obtain ⟨himpl2, hplace2⟩ := hsecond
        obtain ⟨_, _, maps₂, _, _, _, hok₂⟩ := applyOneRelocation_ok
          (S := symbolAddress segments e) (A := e.addend) himpl2 ((hsame.mapped _).mp hplace2)
          ((hsame.wordFits _).mp (hf.second hcode hplace hcode2 himpl2))
        exact ⟨true, maps₂, hok₂, hsame.trans (applyOneRelocation_sameMaps hok₂),
          fun _ => ⟨hcode, hplace, fun _ => ⟨himpl2, hplace2⟩⟩, fun _ => rfl⟩
      · refine ⟨false, maps₁, ?_, hsame, by simp, fun ha => absurd (ha.second hcode2) hsecond⟩
        exact applyOneRelocation_refused fun hacc => hsecond ⟨hacc.1, (hsame.mapped _).mpr hacc.2⟩
  · simp only [applyOneRelocation_refused hfirst, ok_bind, Bool.false_eq_true, false_and, if_false]
    exact ⟨false, maps, rfl, .refl _, by simp, fun ha => absurd ⟨ha.code, ha.place⟩ hfirst⟩

/-- An entry whose words do not fit has no defined result. -/
theorem patchEntry_error (hf : ¬ Fits segments scale maps e) :
    patchEntry segments scale e maps = .error .outOfBounds := by
  unfold patchEntry
  by_cases hfirst : Implemented e.code → WordFits maps (patchAddress segments e)
  · have hsecond : ¬ (Implemented e.code → Mapped maps (patchAddress segments e) → e.code2 ≠ 0 →
        Implemented e.code2 →
          WordFits maps (patchAddress segments e + scale * e.dist2.setWidth 32)) :=
      fun hs => hf ⟨hfirst, hs⟩
    push Not at hsecond
    obtain ⟨hcode, hplace, hcode2, himpl2, hfits⟩ := hsecond
    obtain ⟨_, _, maps₁, _, _, _, hok⟩ := applyOneRelocation_ok
      (S := symbolAddress segments e) (A := e.addend) hcode hplace (hfirst hcode)
    have hsame := applyOneRelocation_sameMaps hok
    simp only [hok, ok_bind, hcode2, ne_eq, not_false_eq_true, and_self, if_true]
    exact applyOneRelocation_error himpl2 fun hw => hfits ((hsame.wordFits _).mpr hw)
  · push Not at hfirst
    obtain ⟨hcode, hfits⟩ := hfirst
    simp only [applyOneRelocation_error hcode hfits]
    rfl

theorem patchEntry_sameMaps {b : Bool} (h : patchEntry segments scale e maps = .ok (b, maps')) :
    SameMaps maps maps' := by
  by_cases hf : Fits segments scale maps e
  · obtain ⟨b', maps₁, hok, hsame, _⟩ := patchEntry_ok hf
    rw [hok] at h
    cases h
    exact hsame
  · rw [patchEntry_error hf] at h
    cases h

end Entry

/-! ## A run over the entries -/

section Run

variable {segments : List DecryptedSegment} {scale : Word}

/-- No word sticks out of its map, up to the first entry that is refused. -/
def RunFits (segments : List DecryptedSegment) (scale : Word) (maps : List MemoryMap)
    (es : List EntryFormat0) : Prop :=
  ∀ pre e post, es = pre ++ e :: post → (∀ x ∈ pre, Accepts segments scale maps x) →
    Fits segments scale maps e

theorem RunFits.head {maps : List MemoryMap} {e : EntryFormat0} {es : List EntryFormat0}
    (h : RunFits segments scale maps (e :: es)) : Fits segments scale maps e :=
  h [] e es rfl (by simp)

theorem RunFits.tail {maps maps' : List MemoryMap} {e : EntryFormat0} {es : List EntryFormat0}
    (h : RunFits segments scale maps (e :: es)) (ha : Accepts segments scale maps e)
    (hs : SameMaps maps maps') : RunFits segments scale maps' es := by
  intro pre x post hes hpre
  refine (Fits.congr hs).mp (h (e :: pre) x post (by rw [hes]; rfl) fun y hy => ?_)
  rcases List.mem_cons.mp hy with rfl | hy
  · exact ha
  · exact (Accepts.congr hs).mpr (hpre y hy)

theorem foldEntries_nil (maps : List MemoryMap) :
    foldEntries segments scale [] maps = .ok maps := rfl

theorem foldEntries_cons (e : EntryFormat0) (es : List EntryFormat0) (maps : List MemoryMap) :
    foldEntries segments scale (e :: es) maps =
      ((patchEntry segments scale e maps).map Prod.snd >>= foldEntries segments scale es) := rfl

/-- A run whose words fit ends: with `true` exactly when every entry is accepted, and
then the memory is the left fold. -/
theorem runEntries_ok {es : List EntryFormat0} {maps : List MemoryMap}
    (h : RunFits segments scale maps es) :
    ∃ b maps', runEntries segments scale es maps = .ok (b, maps') ∧
      (b = true ↔ ∀ e ∈ es, Accepts segments scale maps e) ∧
      (b = true → foldEntries segments scale es maps = .ok maps') := by
  induction es generalizing maps with
  | nil => exact ⟨true, maps, rfl, by simp, fun _ => rfl⟩
  | cons e es ih =>
    obtain ⟨b, maps₁, hok, hsame, hb⟩ := patchEntry_ok h.head
    rw [runEntries, hok, ok_bind]
    cases b with
    | false =>
      refine ⟨false, maps₁, rfl, ?_, by simp⟩
      simp only [Bool.false_eq_true, false_iff]
      intro hall
      exact absurd (hb.mpr (hall e List.mem_cons_self)) (by simp)
    | true =>
      have ha := hb.mp rfl
      obtain ⟨b', maps₂, hok', hb', hfold⟩ := ih (h.tail ha hsame)
      refine ⟨b', maps₂, hok', ?_, fun htrue => ?_⟩
      · rw [hb', List.forall_mem_cons]
        exact ⟨fun hall => ⟨ha, fun x hx => (Accepts.congr hsame).mpr (hall x hx)⟩,
          fun hall x hx => (Accepts.congr hsame).mp (hall.2 x hx)⟩
      · rw [foldEntries_cons, hok]
        exact hfold htrue

/-- A run with a word that does not fit has no defined result. -/
theorem runEntries_error {es : List EntryFormat0} {maps : List MemoryMap}
    (h : ¬ RunFits segments scale maps es) :
    runEntries segments scale es maps = .error .outOfBounds := by
  induction es generalizing maps with
  | nil => exact absurd (fun pre e post hes => by simp at hes) h
  | cons e es ih =>
    by_cases hhead : Fits segments scale maps e
    · obtain ⟨b, maps₁, hok, hsame, hb⟩ := patchEntry_ok hhead
      have hrest : Accepts segments scale maps e ∧ ¬ RunFits segments scale maps₁ es := by
        by_contra hnot
        refine h fun pre x post hes hpre => ?_
        cases pre with
        | nil =>
          simp only [List.nil_append, List.cons.injEq] at hes
          exact hes.1 ▸ hhead
        | cons y pre =>
          simp only [List.cons_append, List.cons.injEq] at hes
          have ha : Accepts segments scale maps e := hes.1 ▸ hpre y List.mem_cons_self
          have hfits : RunFits segments scale maps₁ es := by
            by_contra hno
            exact hnot ⟨ha, hno⟩
          refine (Fits.congr hsame).mpr (hfits pre x post hes.2 fun z hz => ?_)
          exact (Accepts.congr hsame).mp (hpre z (List.mem_cons_of_mem _ hz))
      have htrue := hb.mpr hrest.1
      rw [runEntries, hok, ok_bind, htrue]
      exact ih hrest.2
    · rw [runEntries, patchEntry_error hhead]
      rfl

theorem runEntries_append (es es' : List EntryFormat0) (maps : List MemoryMap) :
    runEntries segments scale (es ++ es') maps = (do
      let (performed, maps) ← runEntries segments scale es maps
      if !performed then return (false, maps)
      else runEntries segments scale es' maps) := by
  induction es generalizing maps with
  | nil => rfl
  | cons e es ih =>
    rw [List.cons_append, runEntries, runEntries]
    cases patchEntry segments scale e maps with
    | error trap => rfl
    | ok first =>
      obtain ⟨applied, maps₁⟩ := first
      cases applied with
      | false => rfl
      | true =>
        simp only [ok_bind, Bool.not_true, Bool.false_eq_true, if_false]
        exact ih maps₁

end Run

/-! ## The walk over the bytes -/

/-- The entries of a segment, as 12-byte records. -/
def DecryptedSegment.entries (seg : DecryptedSegment) : List EntryFormat0 :=
  (List.range (seg.phdr.pFilesz.toNat / 12)).map fun k => .ofBytes (slice seg.data (12 * k) 12)

/-- A segment that is a whole number of entries of format 0. -/
structure DecryptedSegment.IsTable (seg : DecryptedSegment) : Prop where
  whole : seg.phdr.pFilesz.toNat % 12 = 0
  inside : seg.phdr.pFilesz.toNat ≤ seg.data.length
  format : ∀ k < seg.phdr.pFilesz.toNat / 12, entryFormat (slice seg.data (12 * k) 1) = 0

/-- The entries of all relocatable segments, in file order. -/
def SELFProgramData.entries (data : SELFProgramData) : List EntryFormat0 :=
  (data.segments.filter (·.relocatable)).flatMap DecryptedSegment.entries

section Table

variable {segments : List DecryptedSegment}

/-- Over a table the walk decodes the entries one by one. -/
theorem performSegmentRelocation_eq {seg : DecryptedSegment} (h : seg.IsTable) (n k : Nat)
    (hk : k + n = seg.phdr.pFilesz.toNat / 12) (maps : List MemoryMap) :
    performSegmentRelocation segments seg (12 * k) maps =
      runEntries segments 4#32 (seg.entries.drop k) maps := by
  have hwhole := h.whole
  have hinside := h.inside
  have hlen : seg.entries.length = seg.phdr.pFilesz.toNat / 12 := by
    simp [DecryptedSegment.entries]
  induction n generalizing k maps with
  | zero =>
    rw [performSegmentRelocation, if_neg (by omega), List.drop_eq_nil_of_le (by omega), runEntries]
  | succ n ih =>
    have hkt : k < seg.entries.length := by omega
    have hentry : seg.entries[k] = .ofBytes (slice seg.data (12 * k) 12) := by
      simp [DecryptedSegment.entries]
    have hformat : bufRead seg.data (12 * k) 1 = .ok (slice seg.data (12 * k) 1) :=
      if_pos (.inr (by omega))
    have hbytes : bufRead seg.data (12 * k) 12 = .ok (slice seg.data (12 * k) 12) :=
      if_pos (.inr (by omega))
    rw [performSegmentRelocation, if_pos (by omega), hformat, ok_bind,
      if_pos (h.format k (by omega)), hbytes, ok_bind, List.drop_eq_getElem_cons hkt, runEntries,
      hentry, applyEntry_eq]
    cases patchEntry segments 4#32 (.ofBytes (slice seg.data (12 * k) 12)) maps with
    | error trap => rfl
    | ok first =>
      obtain ⟨applied, maps₁⟩ := first
      cases applied with
      | false => rfl
      | true =>
        simp only [ok_bind, Bool.not_true, Bool.false_eq_true, if_false]
        exact ih (k + 1) (by omega) maps₁

/-- The pass is a run over the entries of all tables. -/
theorem relocateSegments_eq {rest : List DecryptedSegment}
    (h : ∀ seg ∈ rest, seg.relocatable → seg.IsTable) (maps : List MemoryMap) :
    relocateSegments segments rest maps = runEntries segments 4#32
      ((rest.filter (·.relocatable)).flatMap DecryptedSegment.entries) maps := by
  induction rest generalizing maps with
  | nil => rfl
  | cons seg rest ih =>
    have hrest := ih fun s hs => h s (List.mem_cons_of_mem _ hs)
    rw [relocateSegments]
    by_cases hr : seg.relocatable = true
    · have htable := h seg List.mem_cons_self hr
      rw [if_pos hr, List.filter_cons_of_pos hr, List.flatMap_cons, runEntries_append,
        performSegmentRelocation_eq htable (seg.phdr.pFilesz.toNat / 12) 0 (Nat.zero_add _),
        List.drop_zero]
      simp only [hrest]
    · rw [if_neg hr, List.filter_cons_of_neg hr]
      exact hrest maps

end Table

/-! ## The pass -/

section Same

variable {segments : List DecryptedSegment} {maps maps' : List MemoryMap} {b : Bool}

/-- Whatever the bytes of the segment are, the walk only changes contents. -/
theorem performSegmentRelocation_sameMaps {seg : DecryptedSegment} {programData : Nat}
    (h : performSegmentRelocation segments seg programData maps = .ok (b, maps')) :
    SameMaps maps maps' := by
  induction hleft : seg.phdr.pFilesz.toNat - programData using Nat.strong_induction_on
    generalizing programData maps with
  | h left ih =>
    rw [performSegmentRelocation] at h
    split at h
    · obtain ⟨relUnknown, _, h⟩ := bind_ok.mp h
      split at h
      · obtain ⟨bytes, _, h⟩ := bind_ok.mp h
        obtain ⟨⟨applied, maps₁⟩, hentry, h⟩ := bind_ok.mp h
        rw [applyEntry_eq] at hentry
        have hsame := patchEntry_sameMaps hentry
        cases applied with
        | false =>
          cases h
          exact hsame
        | true => exact hsame.trans (ih _ (by omega) h rfl)
      · cases h
        exact .refl _
    · cases h
      exact .refl _

theorem relocateSegments_sameMaps {rest : List DecryptedSegment}
    (h : relocateSegments segments rest maps = .ok (b, maps')) : SameMaps maps maps' := by
  induction rest generalizing maps with
  | nil =>
    cases h
    exact .refl _
  | cons i rest ih =>
    rw [relocateSegments] at h
    split at h
    · obtain ⟨⟨performed, maps₁⟩, hperformed, h⟩ := bind_ok.mp h
      have hsame := performSegmentRelocation_sameMaps hperformed
      cases performed with
      | false =>
        cases h
        exact hsame
      | true => exact hsame.trans (ih h)
    · exact ih h

theorem doSelfRelocationProgramData_sameMaps {data : SELFProgramData}
    (h : doSelfRelocationProgramData data maps = .ok (b, maps')) : SameMaps maps maps' :=
  relocateSegments_sameMaps h

end Same

/-- What the entry asks for: codes with a case of their own, a patch segment that exists,
and places that are mapped. -/
def EntryOk (data : SELFProgramData) (maps : List MemoryMap) (e : EntryFormat0) : Prop :=
  e.patchSegment.toNat < data.segments.length ∧ Accepts data.segments 2#32 maps e

/-- The pass returns `true` exactly when every entry is as it should be, and then the
memory is the left fold over the entries. -/
def RelocatesAsFold (data : SELFProgramData) (maps : List MemoryMap) : Prop :=
  ∃ performed maps', doSelfRelocationProgramData data maps = .ok (performed, maps') ∧
    (performed = true ↔ ∀ e ∈ data.entries, EntryOk data maps e) ∧
    (performed = true → foldEntries data.segments 2#32 data.entries maps = .ok maps')

/-- Every word that is reached fits, and the code, with second places at `P + 4 * dist2`
and address `0` for a missing segment, refuses some entry just when one is not as it
should be, and otherwise patches to the same memory. -/
structure SecondPlacesHarmless (data : SELFProgramData) (maps : List MemoryMap) : Prop where
  fits : RunFits data.segments 4#32 maps data.entries
  flag : (∀ e ∈ data.entries, Accepts data.segments 4#32 maps e) ↔
    ∀ e ∈ data.entries, EntryOk data maps e
  memory : (∀ e ∈ data.entries, Accepts data.segments 4#32 maps e) →
    foldEntries data.segments 4#32 data.entries maps =
      foldEntries data.segments 2#32 data.entries maps

/-- No entry uses the second code at a distance, or a segment that does not exist. -/
def PlainEntry (data : SELFProgramData) (e : EntryFormat0) : Prop :=
  e.patchSegment.toNat < data.segments.length ∧ (e.code2 = 0 ∨ e.dist2 = 0)

/-- Tables that never get to the misplaced second patch: the words fit, and either every
entry is plain, or the code refuses an entry of a table that is to be refused. -/
structure PlainTable (data : SELFProgramData) (maps : List MemoryMap) : Prop where
  fits : RunFits data.segments 4#32 maps data.entries
  entries : (∀ e ∈ data.entries, PlainEntry data e) ∨
    (∃ e ∈ data.entries, ¬ Accepts data.segments 4#32 maps e) ∧
      ∃ e ∈ data.entries, ¬ EntryOk data maps e

/-- `MOVW` at `P` and `MOVT` at `Q` load `v`. -/
def LoadsPair (maps : List MemoryMap) (P Q v : Word) : Prop :=
  ∃ p q movw movt, getPointerUnchecked maps P = some p ∧ getPointerUnchecked maps Q = some q ∧
    readWord maps p = .ok movw ∧ readWord maps q = .ok movt ∧ thmPairValue movw movt = v

section Pass

variable {data : SELFProgramData} {maps : List MemoryMap}

theorem doSelfRelocationProgramData_eq
    (htable : ∀ seg ∈ data.segments, seg.relocatable → seg.IsTable) (maps : List MemoryMap) :
    doSelfRelocationProgramData data maps = runEntries data.segments 4#32 data.entries maps := by
  rw [doSelfRelocationProgramData, relocateSegments_eq htable, SELFProgramData.entries]

theorem relocatesAsFold_iff
    (htable : ∀ seg ∈ data.segments, seg.relocatable → seg.IsTable) :
    RelocatesAsFold data maps ↔ SecondPlacesHarmless data maps := by
  unfold RelocatesAsFold
  rw [doSelfRelocationProgramData_eq htable]
  by_cases hfits : RunFits data.segments 4#32 maps data.entries
  · obtain ⟨b, maps₁, hrun, hb, hfold⟩ := runEntries_ok hfits
    rw [hrun]
    constructor
    · intro h
      obtain ⟨performed, maps₂, heq, hflag, hmem⟩ := h
      cases heq
      refine ⟨hfits, hb.symm.trans hflag, fun hall => ?_⟩
      rw [hfold (hb.mpr hall), hmem (hb.mpr hall)]
    · intro h
      refine ⟨b, maps₁, rfl, hb.trans h.flag, fun htrue => ?_⟩
      rw [← h.memory (hb.mp htrue), hfold htrue]
  · rw [runEntries_error hfits]
    constructor
    · intro h
      obtain ⟨performed, maps₂, heq, _⟩ := h
      cases heq
    · exact fun h => absurd h.fits hfits

/-- The scale does not matter to an entry without a distant second place. -/
theorem PlainEntry.patchEntry_eq {e : EntryFormat0} (h : PlainEntry data e)
    (maps : List MemoryMap) :
    patchEntry data.segments 4#32 e maps = patchEntry data.segments 2#32 e maps := by
  rcases h.2 with hcode2 | hdist2
  · simp [patchEntry, hcode2]
  · simp [patchEntry, hdist2]

theorem PlainEntry.accepts_iff {e : EntryFormat0} (h : PlainEntry data e) :
    Accepts data.segments 4#32 maps e ↔ EntryOk data maps e := by
  have hscale : Accepts data.segments 4#32 maps e ↔ Accepts data.segments 2#32 maps e := by
    rcases h.2 with hcode2 | hdist2
    · exact ⟨fun ha => ⟨ha.code, ha.place, fun hne => absurd hcode2 hne⟩,
        fun ha => ⟨ha.code, ha.place, fun hne => absurd hcode2 hne⟩⟩
    · have hplace : ∀ scale : Word,
          patchAddress data.segments e + scale * e.dist2.setWidth 32 =
            patchAddress data.segments e := by simp [hdist2]
      exact ⟨fun ha => ⟨ha.code, ha.place, by simpa only [hplace] using ha.second⟩,
        fun ha => ⟨ha.code, ha.place, by simpa only [hplace] using ha.second⟩⟩
  rw [hscale, EntryOk]
  exact (and_iff_right h.1).symm

theorem foldEntries_congr {es : List EntryFormat0} (h : ∀ e ∈ es, PlainEntry data e)
    (maps : List MemoryMap) :
    foldEntries data.segments 4#32 es maps = foldEntries data.segments 2#32 es maps := by
  induction es generalizing maps with
  | nil => rw [foldEntries_nil, foldEntries_nil]
  | cons e es ih =>
    have hes : foldEntries data.segments 4#32 es = foldEntries data.segments 2#32 es :=
      funext (ih fun x hx => h x (List.mem_cons_of_mem _ hx))
    rw [foldEntries_cons, foldEntries_cons, (h e List.mem_cons_self).patchEntry_eq, hes]

theorem PlainTable.harmless (h : PlainTable data maps) : SecondPlacesHarmless data maps := by
  rcases h.entries with hplain | ⟨⟨e, he, hrefused⟩, e', he', hbad⟩
  · exact ⟨h.fits, forall_congr' fun e => forall_congr' fun he => (hplain e he).accepts_iff,
      fun _ => foldEntries_congr hplain maps⟩
  · -- both readings of the entry's places refuse the table
    exact ⟨h.fits, ⟨fun hall => absurd (hall e he) hrefused, fun hall => absurd (hall e' he') hbad⟩,
      fun hall => absurd (hall e he) hrefused⟩

/-- An accepted entry with a second code makes both patches. -/
theorem patchEntry_both {segments : List DecryptedSegment} {scale : Word}
    {maps maps' : List MemoryMap} {e : EntryFormat0} (hne : e.code2 ≠ 0)
    (h : patchEntry segments scale e maps = .ok (true, maps')) :
    ∃ maps₁, applyOneRelocation maps e.code (symbolAddress segments e) e.addend
        (patchAddress segments e) = .ok (true, maps₁) ∧
      applyOneRelocation maps₁ e.code2 (symbolAddress segments e) e.addend
        (patchAddress segments e + scale * e.dist2.setWidth 32) = .ok (true, maps') := by
  obtain ⟨⟨applied, maps₁⟩, hfirst, h⟩ := bind_ok.mp h
  cases applied with
  | false =>
    simp only [Bool.false_eq_true, false_and, if_false] at h
    cases h
  | true =>
    simp only [hne, ne_eq, not_false_eq_true, and_self, if_true] at h
    exact ⟨maps₁, hfirst, h⟩

/-- In the fold, an entry for a `MOVW`/`MOVT` pair leaves a pair that loads `S + A`. -/
theorem patchEntry_loadsPair {segments : List DecryptedSegment} {maps maps' : List MemoryMap}
    {e : EntryFormat0} (hcode : e.code = R_ARM_THM_MOVW_ABS_NC)
    (hcode2 : e.code2 = R_ARM_THM_MOVT_ABS) (hdist : 2 ≤ e.dist2.toNat)
    (h : patchEntry segments 2#32 e maps = .ok (true, maps')) :
    LoadsPair maps' (patchAddress segments e)
      (patchAddress segments e + 2#32 * e.dist2.setWidth 32)
      (symbolAddress segments e + e.addend) := by
  have hne : e.code2 ≠ 0 := by rw [hcode2]; decide
  obtain ⟨maps₁, hfirst, hsecond⟩ := patchEntry_both hne h
  obtain ⟨p, old, hp, _, hwrite⟩ := applyOneRelocation_true hfirst
  obtain ⟨q, old', hq, _, hwrite'⟩ := applyOneRelocation_true hsecond
  have hsame := writeWord_sameMaps hwrite
  have hsame' := hsame.trans (writeWord_sameMaps hwrite')
  have hq' : getPointerUnchecked maps (patchAddress segments e +
      2#32 * e.dist2.setWidth 32) = some q := by rw [hsame.getPointerUnchecked, hq]
  -- the words do not overlap, so the second write keeps the first
  have hclear : p.Clear 4 q 4 := by
    have hlt := e.dist2.isLt
    have hdiff : (patchAddress segments e + 2#32 * e.dist2.setWidth 32 -
        patchAddress segments e).toNat = 2 * e.dist2.toNat := by bv_omega
    exact (HostPtr.clear_of_getPointerUnchecked hp hq' (by omega) (by omega)).symm
  refine ⟨p, q, _, _, (hsame'.getPointerUnchecked _).symm.trans hp,
    (hsame'.getPointerUnchecked _).symm.trans hq',
    (readWord_writeWord_clear hwrite' hclear).trans (readWord_writeWord_self hwrite),
    readWord_writeWord_self hwrite', ?_⟩
  have hmovw : patchedWord e.code (symbolAddress segments e) e.addend (patchAddress segments e)
      old = patchThmMovw old (symbolAddress segments e + e.addend) := by
    rw [hcode]
    rfl
  have hmovt : ∀ P, patchedWord e.code2 (symbolAddress segments e) e.addend P old' =
      patchThmMovt old' (symbolAddress segments e + e.addend) := by
    intro P
    rw [hcode2]
    rfl
  rw [hmovw, hmovt]
  exact thmPairValue_patched _ _ _

/-- The relocation pass over tables of format 0 is the fold over their entries exactly
when the misplaced second patches do no harm, which is so for a table that never gets to
one; and in the fold each `MOVW`/`MOVT` pair loads `S + A`. -/
theorem relocation_table_iff
    (htable : ∀ seg ∈ data.segments, seg.relocatable → seg.IsTable) :
    (RelocatesAsFold data maps ↔ SecondPlacesHarmless data maps) ∧
    (PlainTable data maps → RelocatesAsFold data maps) ∧
    ∀ e ∈ data.entries, e.code = R_ARM_THM_MOVW_ABS_NC → e.code2 = R_ARM_THM_MOVT_ABS →
      2 ≤ e.dist2.toNat → ∀ maps₁ maps₂, patchEntry data.segments 2#32 e maps₁ = .ok (true, maps₂) →
        LoadsPair maps₂ (patchAddress data.segments e)
          (patchAddress data.segments e + 2#32 * e.dist2.setWidth 32)
          (symbolAddress data.segments e + e.addend) :=
  ⟨relocatesAsFold_iff htable, fun h => (relocatesAsFold_iff htable).mpr h.harmless,
    fun _ _ hcode hcode2 hdist _ _ h => patchEntry_loadsPair hcode hcode2 hdist h⟩

end Pass

/-- A segment at `0x81000000` and a table of one entry for its first two instructions. -/
def oneEntryTable (word addend : Word) : SELFProgramData where
  entry := 0
  relocatable := true
  executableType := ET_SCE_RELEXEC
  segments :=
    [⟨"program_segment_0", [], 0, false, true,
        { ELFPhdr32.zero with pType := PT_LOAD, pVaddr := 0x81000000#32 }⟩,
      ⟨"program_segment_1", encode 4 word.toNat ++ encode 4 addend.toNat ++ encode 4 0, 12, true,
        true,
        { ELFPhdr32.zero with pType := PT_SCE_RELA, pFilesz := 12#32 }⟩]

/-- Sixteen bytes for the segment. -/
def segmentMaps : List MemoryMap := [.fresh "self" 0x81000000#32 0x8100000F#32 7#8]

theorem oneEntryTable_isTable {word addend : Word}
    (h : entryFormat (slice (encode 4 word.toNat ++ encode 4 addend.toNat ++ encode 4 0) 0 1) = 0) :
    ∀ seg ∈ (oneEntryTable word addend).segments, seg.relocatable → seg.IsTable := by
  intro seg hseg hr
  simp only [oneEntryTable, List.mem_cons, List.not_mem_nil, or_false] at hseg
  rcases hseg with rfl | rfl
  · cases hr
  · refine ⟨by simp, by simp, fun k hk => ?_⟩
    have hzero : k = 0 := by
      simp only [BitVec.reduceToNat, Nat.reduceDiv] at hk
      omega
    subst hzero
    exact h

/-- The segment and a table of three entries: an `ABS32`, a `MOVW` and a `MOVT`. -/
def threeEntryTable : SELFProgramData where
  entry := 0
  relocatable := true
  executableType := ET_SCE_RELEXEC
  segments :=
    [⟨"program_segment_0", [], 0, false, true,
        { ELFPhdr32.zero with pType := PT_LOAD, pVaddr := 0x81000000#32 }⟩,
      ⟨"program_segment_1",
        encode 4 0x200 ++ encode 4 0x10 ++ encode 4 0 ++
          (encode 4 0x2F00 ++ encode 4 0x12345678 ++ encode 4 4) ++
          (encode 4 0x3000 ++ encode 4 0x12345678 ++ encode 4 8),
        36, true, true,
        { ELFPhdr32.zero with pType := PT_SCE_RELA, pFilesz := 36#32 }⟩]

theorem threeEntryTable_isTable :
    ∀ seg ∈ threeEntryTable.segments, seg.relocatable → seg.IsTable := by
  intro seg hseg hr
  rcases List.mem_pair.mp hseg with rfl | rfl
  · cases hr
  · exact ⟨by decide, by decide, by decide⟩

/-- An `ABS32`, a `MOVW` and a `MOVT` entry without second codes; and an entry for a pair, whose
second place the reference finds. -/
theorem relocation_table_abs32 :
    RelocatesAsFold threeEntryTable segmentMaps ∧
      ∀ maps₁ maps₂, patchEntry (oneEntryTable 0x23002F00#32 0x12345678#32).segments 2#32
          ⟨0#4, 47#8, 0#4, 48#8, 2#4, 0x12345678#32, 0#32⟩ maps₁ = .ok (true, maps₂) →
        LoadsPair maps₂ 0x81000000#32 0x81000004#32 0x93345678#32 := by
  constructor
  · have hentries : threeEntryTable.entries =
        [⟨0#4, 2#8, 0#4, 0#8, 0#4, 0x10#32, 0#32⟩,
          ⟨0#4, 47#8, 0#4, 0#8, 0#4, 0x12345678#32, 4#32⟩,
          ⟨0#4, 48#8, 0#4, 0#8, 0#4, 0x12345678#32, 8#32⟩] := by decide
    refine (relocation_table_iff threeEntryTable_isTable).2.1 ⟨?_, .inl ?_⟩
    · intro pre e post hes _
      have he : e ∈ threeEntryTable.entries := by
        rw [hes]
        exact List.mem_append_right _ List.mem_cons_self
      have hsecond : ∀ e ∈ threeEntryTable.entries, e.code2 = 0 := by
        rw [hentries]
        decide
      have hplaces : ∀ e ∈ threeEntryTable.entries, ∃ p,
          getPointerUnchecked segmentMaps (patchAddress threeEntryTable.segments e) = some p ∧
            InBuffer segmentMaps p 4 := by
        rw [hentries]
        intro e he
        simp only [List.mem_cons, List.not_mem_nil, or_false] at he
        rcases he with rfl | rfl | rfl
        · exact ⟨⟨0, 0⟩, by decide, _, rfl, .inr (by decide)⟩
        · exact ⟨⟨0, 4⟩, by decide, _, rfl, .inr (by decide)⟩
        · exact ⟨⟨0, 8⟩, by decide, _, rfl, .inr (by decide)⟩
      refine ⟨fun _ p hp => ?_, fun _ _ hne => absurd (hsecond e he) hne⟩
      obtain ⟨q, hq, hin⟩ := hplaces e he
      cases hq.symm.trans hp
      exact hin
    · rw [hentries]
      intro e he
      simp only [List.mem_cons, List.not_mem_nil, or_false] at he
      rcases he with rfl | rfl | rfl <;> exact ⟨by decide, .inl rfl⟩
  · intro maps₁ maps₂ h
    exact (@relocation_table_iff (oneEntryTable 0x23002F00#32 0x12345678#32) segmentMaps
      (oneEntryTable_isTable (by decide))).2.2 _ (by decide) rfl rfl (by decide) maps₁ maps₂ h

/-- A `MOVW`/`MOVT` pair with `dist2 = 2`: the `MOVT` is patched four bytes too far. -/
theorem relocation_misses_movt :
    ¬ RelocatesAsFold (oneEntryTable 0x23002F00#32 0x12345678#32) segmentMaps := by
  rw [relocatesAsFold_iff (oneEntryTable_isTable (by decide))]
  intro h
  have hentries : (oneEntryTable 0x23002F00#32 0x12345678#32).entries =
      [⟨0#4, 47#8, 0#4, 48#8, 2#4, 0x12345678#32, 0#32⟩] := by decide
  have hall : ∀ e ∈ (oneEntryTable 0x23002F00#32 0x12345678#32).entries,
      Accepts (oneEntryTable 0x23002F00#32 0x12345678#32).segments 4#32 segmentMaps e := by
    intro e he
    rw [hentries, List.mem_singleton] at he
    subst he
    exact ⟨by decide, by decide, fun _ => ⟨by decide, by decide⟩⟩
  have hmem := h.memory hall
  rw [hentries] at hmem
  have hword := congrArg (fun r => (r >>= fun maps => readWord maps ⟨0, 4⟩).toOption) hmem
  exact absurd hword (by decide)

end Betavita.Loader
