import Betavita.Loader.RelocationTable
import Betavita.Memory.Guest

/-!
# self_loader.cpp — the fields of a relocation

A relocation writes one field of the word at its place. This module says which bits
the code writes for each type, and what the instruction set reads back from them: the
word, the low 31 bits, the offset of a Thumb `BL` or the immediate of a `MOVW`/`MOVT`.
The field that the type relocates is the set of bits the code writes, except for
`R_ARM_PREL31`, whose plain store also writes bit 31.
-/

namespace Betavita.Loader

open Memory

/-! ## The bits that are written -/

theorem setField_getLsbD {lo width : Nat} (h : lo + width ≤ 16) (x : Half) (v : Word) (i : Nat) :
    (setField x lo width v).getLsbD i =
      if lo ≤ i ∧ i < lo + width then v.getLsbD (i - lo) else x.getLsbD i := by
  have hmask : ∀ j, (BitVec.ofNat 16 (2 ^ width - 1)).getLsbD j = decide (j < width) := by
    intro j
    rw [BitVec.getLsbD_ofNat, Nat.testBit_two_pow_sub_one]
    by_cases hj : j < width
    · simp [hj, show j < 16 by omega]
    · simp [hj]
  unfold setField
  simp only [BitVec.getLsbD_or, BitVec.getLsbD_and, BitVec.getLsbD_not, BitVec.getLsbD_shiftLeft,
    BitVec.getLsbD_setWidth, hmask]
  by_cases hi : i < 16
  · by_cases hlo : lo ≤ i
    · by_cases hw : i < lo + width
      · simp [hi, hlo, hw, show ¬ i < lo by omega, show i - lo < width by omega,
          show i - lo < 16 by omega]
      · simp [hi, hlo, hw, show ¬ i < lo by omega, show ¬ i - lo < width by omega]
    · simp [hi, hlo, show i < lo by omega]
  · simp [hi, show ¬ i < lo + width by omega, BitVec.getLsbD_of_ge _ _ (Nat.le_of_not_lt hi)]

/-- Bit by bit, what the five assignments of the `BL` case leave in the two halfwords. -/
theorem patchThmCall_getElem (pair displacement : Word) {i : Nat} (hi : i < 32) :
    (patchThmCall pair displacement)[i] =
      if i < 10 then displacement.getLsbD (i + 12)
      else if i = 10 then displacement.getLsbD 24
      else if 16 ≤ i ∧ i < 27 then displacement.getLsbD (i - 15)
      else if i = 27 then (displacement.getLsbD 24 ^^ !displacement.getLsbD 22)
      else if i = 29 then (displacement.getLsbD 24 ^^ !displacement.getLsbD 23)
      else pair.getLsbD i := by
  unfold patchThmCall
  rw [← BitVec.getLsbD_eq_getElem, BitVec.getLsbD_append]
  by_cases hlow : i < 16
  · rw [if_pos hlow, setField_getLsbD (by decide), setField_getLsbD (by decide)]
    interval_cases i <;> simp
  · -- the lower halfword; the `J` bits read the sign that was just stored in the upper one
    rw [if_neg hlow, setField_getLsbD (by decide), setField_getLsbD (by decide),
      setField_getLsbD (by decide)]
    simp only [BitVec.getLsbD_xor, BitVec.getLsbD_setWidth, BitVec.getLsbD_and,
      BitVec.getLsbD_ushiftRight, setField_getLsbD (show 10 + 1 ≤ 16 by decide)]
    interval_cases i <;> simp

/-- The bits that the code writes for a type. -/
def writtenMask (relocationType : Byte) : Word :=
  if relocationType = R_ARM_THM_CALL then 0x2FFF07FF#32
  else if relocationType = R_ARM_THM_MOVW_ABS_NC ∨ relocationType = R_ARM_THM_MOVT_ABS then
    0x70FF040F#32
  else 0xFFFFFFFF#32

theorem patchThmCall_merge (pair displacement : Word) :
    patchThmCall pair displacement =
      (pair &&& ~~~0x2FFF07FF#32) ||| (patchThmCall 0 displacement &&& 0x2FFF07FF#32) := by
  apply BitVec.eq_of_getElem_eq
  intro i hi
  rw [BitVec.getElem_or, BitVec.getElem_and, BitVec.getElem_and, patchThmCall_getElem _ _ hi,
    patchThmCall_getElem _ _ hi]
  interval_cases i <;> simp

theorem patchThmMovw_merge (opcode target : Word) :
    patchThmMovw opcode target =
      (opcode &&& ~~~0x70FF040F#32) ||| (patchThmMovw 0 target &&& 0x70FF040F#32) := by
  apply BitVec.eq_of_getElem_eq
  intro i hi
  unfold patchThmMovw patchThmMov
  interval_cases i <;> simp

/-- A patch merges a constant into the old word under the mask of its type: what it writes
does not depend on what was there. -/
theorem patchedWord_merge {relocationType : Byte} (hi : Implemented relocationType)
    (S A P old : Word) :
    patchedWord relocationType S A P old =
      (old &&& ~~~writtenMask relocationType) |||
        (patchedWord relocationType S A P 0 &&& writtenMask relocationType) := by
  have hplain : ∀ v : Word, v = (old &&& ~~~0xFFFFFFFF#32) ||| (v &&& 0xFFFFFFFF#32) := by
    intro v
    have hones : 0xFFFFFFFF#32 = BitVec.allOnes 32 := by decide
    rw [hones, BitVec.not_allOnes, BitVec.and_zero, BitVec.zero_or, BitVec.and_allOnes]
  rcases hi with rfl | rfl | rfl | rfl | rfl | rfl
  · exact hplain (S + A)
  · exact hplain (S + A)
  · exact hplain ((A - P + S) &&& 0x7FFFFFFF#32)
  · exact patchThmCall_merge old (A - P + S)
  · exact patchThmMovw_merge old (S + A)
  · have hmerge := patchThmMovw_merge old ((S + A) >>> 16)
    rw [← patchThmMovt_eq, ← patchThmMovt_eq] at hmerge
    exact hmerge

/-- Outside its mask a merge keeps the old bits. -/
theorem merge_outside (old v mask : Word) :
    ((old &&& ~~~mask) ||| (v &&& mask)) &&& ~~~mask = old &&& ~~~mask := by
  apply BitVec.eq_of_getElem_eq
  intro i hi
  simp only [BitVec.getElem_and, BitVec.getElem_or, BitVec.getElem_not]
  cases mask[i] <;> simp

/-! ## What the instruction set reads -/

/-- The offset of a Thumb `BL`, `SignExtend(S:I1:I2:imm10:imm11:0)`. -/
def thmCallOffset (pair : Word) : Word :=
  let s := pair.extractLsb' 10 1
  let i1 := ~~~(pair.extractLsb' 29 1 ^^^ s)
  let i2 := ~~~(pair.extractLsb' 27 1 ^^^ s)
  (s ++ i1 ++ i2 ++ pair.extractLsb' 0 10 ++ pair.extractLsb' 16 11 ++ 0#1).signExtend 32

/-- The displacements a `BL` can reach. -/
def InBranchRange (displacement : Word) : Prop :=
  displacement.toInt % 2 = 0 ∧ -2 ^ 24 ≤ displacement.toInt ∧ displacement.toInt < 2 ^ 24

instance (displacement : Word) : Decidable (InBranchRange displacement) :=
  inferInstanceAs (Decidable (_ ∧ _ ∧ _))

theorem thmCallOffset_patchThmCall (pair displacement : Word) :
    thmCallOffset (patchThmCall pair displacement) =
      ((displacement &&& ~~~1#32).setWidth 25).signExtend 32 := by
  unfold thmCallOffset
  refine congrArg (BitVec.signExtend 32) (BitVec.eq_of_getLsbD_eq fun i hi => ?_)
  -- each of the 25 bits is a bit of the pair, up to the two that the `J` bits encode
  simp only [BitVec.getLsbD_append, BitVec.getLsbD_not, BitVec.getLsbD_xor,
    BitVec.getLsbD_extractLsb']
  have hdecode : ∀ sign bit : Bool, (sign != (bit != sign)) = bit := by decide
  interval_cases i <;> simp [patchThmCall_getElem, hdecode]

theorem signExtend_of_inBranchRange {displacement : Word} (h : InBranchRange displacement) :
    ((displacement &&& ~~~1#32).setWidth 25).signExtend 32 = displacement := by
  obtain ⟨heven, hlo, hhi⟩ := h
  have hclear : displacement &&& ~~~1#32 = displacement := by
    have hbit : displacement.getLsbD 0 = false := by
      rw [BitVec.getLsbD, Nat.testBit_zero, decide_eq_false_iff_not]
      rw [BitVec.toInt_eq_toNat_cond] at heven
      omega
    apply BitVec.eq_of_getElem_eq
    intro i hi
    simp only [BitVec.getElem_and, BitVec.getElem_not, BitVec.getElem_one]
    rcases Nat.eq_zero_or_pos i with rfl | hpos
    · simpa using hbit.symm
    · simp [show ¬ i = 0 by omega]
  rw [hclear]
  apply BitVec.eq_of_toInt_eq
  rw [BitVec.toInt_signExtend_of_le (by decide), BitVec.toInt_setWidth]
  rw [BitVec.toInt_eq_toNat_cond] at hlo hhi ⊢
  simp only [Int.bmod]
  omega

theorem thmMovImm_patchThmMovt (opcode target : Word) :
    thmMovImm (patchThmMovt opcode target) = target >>> 16 := by
  rw [patchThmMovt_eq, thmMovImm_patchThmMovw]
  apply BitVec.eq_of_getElem_eq
  intro i hi
  interval_cases i <;> simp

/-- The reading of a relocated word gives the value the relocation encodes. -/
structure FieldReads (relocationType : Byte) (S A P w : Word) : Prop where
  abs32 : relocationType = R_ARM_ABS32 ∨ relocationType = R_ARM_TARGET1 → w = S + A
  prel31 : relocationType = R_ARM_PREL31 → w.setWidth 31 = (S + A - P).setWidth 31
  thmCall : relocationType = R_ARM_THM_CALL →
    thmCallOffset w = (((S + A - P) &&& ~~~1#32).setWidth 25).signExtend 32
  thmCall_eq : relocationType = R_ARM_THM_CALL → InBranchRange (S + A - P) →
    thmCallOffset w = S + A - P
  thmMovw : relocationType = R_ARM_THM_MOVW_ABS_NC → thmMovImm w = (S + A) &&& 0xFFFF#32
  thmMovt : relocationType = R_ARM_THM_MOVT_ABS → thmMovImm w = (S + A) >>> 16

theorem fieldReads_patchedWord (relocationType : Byte) (S A P old : Word) :
    FieldReads relocationType S A P (patchedWord relocationType S A P old) := by
  have hdisplacement : A - P + S = S + A - P := by bv_omega
  have hcall : thmCallOffset (patchThmCall old (A - P + S)) =
      (((S + A - P) &&& ~~~1#32).setWidth 25).signExtend 32 := by
    rw [thmCallOffset_patchThmCall, hdisplacement]
  refine ⟨?_, ?_, ?_, ?_, ?_, ?_⟩
  · rintro (rfl | rfl) <;> rfl
  · rintro rfl
    show ((A - P + S) &&& 0x7FFFFFFF#32).setWidth 31 = _
    rw [hdisplacement]
    apply BitVec.eq_of_getElem_eq
    intro i hi
    interval_cases i <;> simp
  · rintro rfl
    exact hcall
  · rintro rfl hrange
    exact hcall.trans (signExtend_of_inBranchRange hrange)
  · rintro rfl
    exact thmMovImm_patchThmMovw old (S + A)
  · rintro rfl
    exact thmMovImm_patchThmMovt old (S + A)

/-! ## The place after a relocation -/

variable {maps maps' : List MemoryMap} {relocationType : Byte} {S A P : Word}

theorem loadWord_eq_some {w : Word} :
    loadWord maps P = some w ↔
      ∃ p, getPointerUnchecked maps P = some p ∧ readWord maps p = .ok w := by
  simp only [loadWord, Option.bind_eq_some_iff, toOption_eq_some]

theorem applyOneRelocation_reads
    (h : applyOneRelocation maps relocationType S A P = .ok (true, maps')) :
    ∃ w, loadWord maps' P = some w ∧ FieldReads relocationType S A P w := by
  obtain ⟨p, old, hp, _, hwrite⟩ := applyOneRelocation_true h
  refine ⟨_, loadWord_eq_some.mpr ⟨p, ?_, readWord_writeWord_self hwrite⟩,
    fieldReads_patchedWord relocationType S A P old⟩
  rw [← (writeWord_sameMaps hwrite).getPointerUnchecked, hp]

/-- A relocation at another word keeps what is read at this one. -/
theorem applyOneRelocation_loadWord {Q : Word} (hapart : AreasApart P 4 Q 4)
    (h : applyOneRelocation maps relocationType S A Q = .ok (true, maps')) :
    loadWord maps' P = loadWord maps P := by
  obtain ⟨q, old, hq, _, hwrite⟩ := applyOneRelocation_true h
  rw [loadWord, loadWord, ← (writeWord_sameMaps hwrite).getPointerUnchecked]
  cases hp : getPointerUnchecked maps P with
  | none => rfl
  | some p =>
    have hclear : p.Clear 4 q 4 := hapart.clear hp hq (by decide) (by decide)
    simp only [Option.bind_some, readWord_writeWord_clear hwrite hclear]

/-- Decoding the place of an accepted relocation gives the value it encodes; and a pair of
Thumb `MOVW` and `MOVT` at two separate words, relocated in either order, reads back both
halves. -/
theorem applyOneRelocation_roundTrip :
    (∀ maps maps' relocationType S A P,
      applyOneRelocation maps relocationType S A P = .ok (true, maps') →
        ∃ w, loadWord maps' P = some w ∧ FieldReads relocationType S A P w) ∧
    ∀ maps maps₁ maps₂ S A P Q, AreasApart P 4 Q 4 →
      (applyOneRelocation maps R_ARM_THM_MOVW_ABS_NC S A P = .ok (true, maps₁) ∧
          applyOneRelocation maps₁ R_ARM_THM_MOVT_ABS S A Q = .ok (true, maps₂) ∨
        applyOneRelocation maps R_ARM_THM_MOVT_ABS S A Q = .ok (true, maps₁) ∧
          applyOneRelocation maps₁ R_ARM_THM_MOVW_ABS_NC S A P = .ok (true, maps₂)) →
      ∃ movw movt, loadWord maps₂ P = some movw ∧ loadWord maps₂ Q = some movt ∧
        thmMovImm movw = (S + A) &&& 0xFFFF#32 ∧ thmMovImm movt = (S + A) >>> 16 := by
  refine ⟨fun maps maps' relocationType S A P h => applyOneRelocation_reads h, ?_⟩
  rintro maps maps₁ maps₂ S A P Q hapart (⟨hmovw, hmovt⟩ | ⟨hmovt, hmovw⟩)
  · obtain ⟨w, hw, hread⟩ := applyOneRelocation_reads hmovw
    obtain ⟨w', hw', hread'⟩ := applyOneRelocation_reads hmovt
    exact ⟨w, w', (applyOneRelocation_loadWord hapart hmovt).trans hw, hw',
      hread.thmMovw rfl, hread'.thmMovt rfl⟩
  · obtain ⟨w, hw, hread⟩ := applyOneRelocation_reads hmovw
    obtain ⟨w', hw', hread'⟩ := applyOneRelocation_reads hmovt
    exact ⟨w, w', hw, (applyOneRelocation_loadWord hapart.symm hmovw).trans hw',
      hread.thmMovw rfl, hread'.thmMovt rfl⟩

/-- The first two words of the segment. -/
theorem segmentMaps_place {P : Word} (hP : P = 0x81000000#32 ∨ P = 0x81000004#32) :
    Mapped segmentMaps P ∧ WordFits segmentMaps P := by
  have hplace : ∃ p, getPointerUnchecked segmentMaps P = some p ∧ InBuffer segmentMaps p 4 := by
    rcases hP with rfl | rfl
    · exact ⟨⟨0, 0⟩, by decide, _, rfl, .inr (by decide)⟩
    · exact ⟨⟨0, 4⟩, by decide, _, rfl, .inr (by decide)⟩
  obtain ⟨p, hp, hin⟩ := hplace
  exact ⟨mapped_of_some hp, fun q hq => Option.some.inj (hp.symm.trans hq) ▸ hin⟩

/-- Relocations there are accepted. -/
theorem segmentMaps_relocates {maps : List MemoryMap} (hsame : SameMaps segmentMaps maps)
    {relocationType : Byte} (hi : Implemented relocationType) (S A : Word) {P : Word}
    (hP : P = 0x81000000#32 ∨ P = 0x81000004#32) :
    ∃ maps', applyOneRelocation maps relocationType S A P = .ok (true, maps') := by
  obtain ⟨hm, hf⟩ := segmentMaps_place hP
  obtain ⟨_, _, maps', _, _, _, hok⟩ := applyOneRelocation_ok (S := S) (A := A) hi
    ((hsame.mapped P).mp hm) ((hsame.wordFits P).mp hf)
  exact ⟨maps', hok⟩

/-- A pair that loads `0x81002345`, and a `BL` 16 bytes back over it. -/
theorem applyOneRelocation_roundTrip_segment :
    (∃ maps₁ maps₂ movw movt,
      applyOneRelocation segmentMaps R_ARM_THM_MOVW_ABS_NC 0x81000000#32 0x2345#32 0x81000000#32 =
        .ok (true, maps₁) ∧
      applyOneRelocation maps₁ R_ARM_THM_MOVT_ABS 0x81000000#32 0x2345#32 0x81000004#32 =
        .ok (true, maps₂) ∧
      loadWord maps₂ 0x81000000#32 = some movw ∧ loadWord maps₂ 0x81000004#32 = some movt ∧
      thmMovImm movw = 0x2345#32 ∧ thmMovImm movt = 0x8100#32) ∧
    ∃ maps₁ w, applyOneRelocation segmentMaps R_ARM_THM_CALL 0x80FFFFF4#32 0#32 0x81000004#32 =
        .ok (true, maps₁) ∧
      loadWord maps₁ 0x81000004#32 = some w ∧ thmCallOffset w = 0xFFFFFFF0#32 := by
  constructor
  · obtain ⟨maps₁, hmovw⟩ := segmentMaps_relocates (.refl _)
      (show Implemented R_ARM_THM_MOVW_ABS_NC by decide) 0x81000000#32 0x2345#32 (.inl rfl)
    obtain ⟨maps₂, hmovt⟩ := segmentMaps_relocates (applyOneRelocation_sameMaps hmovw)
      (show Implemented R_ARM_THM_MOVT_ABS by decide) 0x81000000#32 0x2345#32 (.inr rfl)
    obtain ⟨movw, movt, hw, ht, hlow, hhigh⟩ :=
      applyOneRelocation_roundTrip.2 segmentMaps maps₁ maps₂ 0x81000000#32 0x2345#32
        0x81000000#32 0x81000004#32 (by decide) (.inl ⟨hmovw, hmovt⟩)
    exact ⟨maps₁, maps₂, movw, movt, hmovw, hmovt, hw, ht, hlow, hhigh⟩
  · obtain ⟨maps₁, hcall⟩ := segmentMaps_relocates (.refl _)
      (show Implemented R_ARM_THM_CALL by decide) 0x80FFFFF4#32 0#32 (.inr rfl)
    obtain ⟨w, hw, hread⟩ := applyOneRelocation_roundTrip.1 segmentMaps maps₁ R_ARM_THM_CALL
      0x80FFFFF4#32 0#32 0x81000004#32 hcall
    exact ⟨maps₁, w, hcall, hw, hread.thmCall_eq rfl (by decide)⟩

/-! ## What a relocation keeps -/

/-- The bits of the field that a type relocates. -/
def fieldMask (relocationType : Byte) : Word :=
  if relocationType = R_ARM_ABS32 ∨ relocationType = R_ARM_TARGET1 then 0xFFFFFFFF#32
  else if relocationType = R_ARM_PREL31 then 0x7FFFFFFF#32
  -- `imm10` and `S` of the upper halfword; `imm11`, `J2` and `J1` of the lower one
  else if relocationType = R_ARM_THM_CALL then
    0x3FF#32 ||| 1#32 <<< 10 ||| 0x7FF#32 <<< 16 ||| 1#32 <<< 27 ||| 1#32 <<< 29
  -- `imm4`, `i`, `imm8` and `imm3`
  else if relocationType = R_ARM_THM_MOVW_ABS_NC ∨ relocationType = R_ARM_THM_MOVT_ABS then
    0xF#32 ||| 1#32 <<< 10 ||| 0xFF#32 <<< 16 ||| 0x7#32 <<< 28
  else 0

/-- Accepted, a relocation keeps the bits outside its field and the bytes outside its
word; refused, it keeps everything. -/
def KeepsOutsideField (maps : List MemoryMap) (relocationType : Byte) (S A P : Word) : Prop :=
  ∀ b maps', applyOneRelocation maps relocationType S A P = .ok (b, maps') →
    (b = true → ∃ p old new, getPointerUnchecked maps P = some p ∧
      readWord maps p = .ok old ∧ readWord maps' p = .ok new ∧
      new &&& ~~~fieldMask relocationType = old &&& ~~~fieldMask relocationType ∧
      SameMaps maps maps' ∧ ∀ q : HostPtr, q.Clear 1 p 4 → byteAt maps' q = byteAt maps q) ∧
    (b = false → maps' = maps)

/-- The plain store of `R_ARM_PREL31` clears bit 31; the other types keep to their field. -/
theorem patchedWord_outsideField {relocationType : Byte} (hi : Implemented relocationType)
    (S A P old : Word) :
    patchedWord relocationType S A P old &&& ~~~fieldMask relocationType =
        old &&& ~~~fieldMask relocationType ↔
      (relocationType = R_ARM_PREL31 → old.getLsbD 31 = false) := by
  by_cases hprel : relocationType = R_ARM_PREL31
  · subst hprel
    show ((A - P + S) &&& 0x7FFFFFFF#32) &&& ~~~0x7FFFFFFF#32 = old &&& ~~~0x7FFFFFFF#32 ↔ _
    rw [BitVec.and_assoc]
    constructor
    · intro h _
      have hbit := congrArg (fun w => BitVec.getLsbD w 31) h
      simpa using hbit.symm
    · intro h
      have hbit := h rfl
      apply BitVec.eq_of_getElem_eq
      intro i hi
      interval_cases i <;> simp_all
  · have hmask : fieldMask relocationType = writtenMask relocationType := by
      rcases hi with rfl | rfl | rfl | rfl | rfl | rfl
      · rfl
      · rfl
      · exact absurd rfl hprel
      all_goals decide
    rw [hmask, patchedWord_merge hi, merge_outside]
    exact iff_of_true rfl fun h => absurd h hprel

/-- An `R_ARM_PREL31` that keeps to its field found bit 31 clear. -/
theorem KeepsOutsideField.prel31 {maps : List MemoryMap} {S A P w : Word}
    (h : KeepsOutsideField maps R_ARM_PREL31 S A P) (hw : loadWord maps P = some w) :
    w.getLsbD 31 = false := by
  obtain ⟨p, hp, hread⟩ := loadWord_eq_some.mp hw
  have hi : Implemented R_ARM_PREL31 := by decide
  have hf : WordFits maps P := by
    intro q hq
    obtain rfl : p = q := Option.some.inj (hp.symm.trans hq)
    exact readWord_isOk_iff.mp ⟨w, hread⟩
  obtain ⟨q, old, maps', hq, hold, hwrite, hok⟩ :=
    applyOneRelocation_ok (S := S) (A := A) hi (mapped_of_some hp) hf
  obtain ⟨q', old', new, hq', hold', hnew, hkept, _⟩ := (h true maps' hok).1 rfl
  obtain rfl : q = p := Option.some.inj (hq.symm.trans hp)
  obtain rfl : q = q' := Option.some.inj (hq.symm.trans hq')
  obtain rfl : w = old := Except.ok.inj (hread.symm.trans hold)
  obtain rfl : w = old' := Except.ok.inj (hread.symm.trans hold')
  have hpatched := Except.ok.inj ((readWord_writeWord_self hwrite).symm.trans hnew)
  rw [← hpatched] at hkept
  exact (patchedWord_outsideField hi S A P w).mp hkept rfl

/-- A relocation keeps to its field exactly when it is not an `R_ARM_PREL31` whose word
has bit 31 set. -/
theorem keepsOutsideField_iff (maps : List MemoryMap) (relocationType : Byte) (S A P : Word) :
    KeepsOutsideField maps relocationType S A P ↔
      (relocationType = R_ARM_PREL31 → ∀ w, loadWord maps P = some w → w.getLsbD 31 = false) := by
  constructor
  · rintro h rfl w hw
    exact h.prel31 hw
  · intro h b maps' hrun
    rcases applyOneRelocation_cases hrun with hrefused | hpatched
    · obtain ⟨rfl, rfl⟩ := hrefused
      exact ⟨fun hno => absurd hno (by decide), fun _ => rfl⟩
    · obtain ⟨rfl, p, old, hp, hread, hwrite⟩ := hpatched
      refine ⟨fun _ => ⟨p, old, _, hp, hread, readWord_writeWord_self hwrite, ?_,
        writeWord_sameMaps hwrite, fun q hq => ?_⟩, fun hno => absurd hno (by decide)⟩
      · refine (patchedWord_outsideField ?_ S A P old).mpr fun hprel =>
          h hprel old (loadWord_eq_some.mpr ⟨p, hp, hread⟩)
        by_contra hno
        rw [applyOneRelocation_refused fun hacc => hno hacc.1] at hrun
        cases hrun
      · exact writeBytes_byteAt_clear hwrite (by rw [ByteBuffer.encode_length]; exact hq)

/-- The segment with the entry of an exception table at its first word. -/
def exceptionTable : List MemoryMap :=
  segmentMaps.map fun it => it.store 0 (ByteBuffer.encode 4 0x80B0B0B0)

/-- The flag bit of the entry is lost. -/
theorem prel31_clears_bit31 :
    ¬ KeepsOutsideField exceptionTable R_ARM_PREL31 0x81000008#32 0#32 0x81000000#32 := by
  intro h
  have hword : loadWord exceptionTable 0x81000000#32 = some 0x80B0B0B0#32 := by decide
  exact absurd (h.prel31 hword) (by decide)

end Betavita.Loader
