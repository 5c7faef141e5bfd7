import Betavita.Memory.Access
import Mathlib.Tactic.IntervalCases

/-!
# self_loader.cpp — one relocation

`apply_one_relocation` patches the word at a guest address. The instruction fields
are written as the C++ bit-fields lay them out: a Thumb-2 instruction is two
halfwords, the first in the low half of the little-endian word.
-/

namespace Betavita.Loader

open Memory

def R_ARM_ABS32 : Byte := 2#8
def R_ARM_THM_CALL : Byte := 10#8
def R_ARM_TARGET1 : Byte := 38#8
def R_ARM_PREL31 : Byte := 42#8
def R_ARM_THM_MOVW_ABS_NC : Byte := 47#8
def R_ARM_THM_MOVT_ABS : Byte := 48#8

/-- Assignment to the bit-field of `width` bits at `lo` of a halfword. -/
def setField (x : Half) (lo width : Nat) (v : Word) : Half :=
  let mask := BitVec.ofNat 16 (2 ^ width - 1)
  (x &&& ~~~(mask <<< lo)) ||| ((v.setWidth 16 &&& mask) <<< lo)

/-- The five assignments to `pair` of the `R_ARM_THM_CALL` case. -/
def patchThmCall (pair displacement : Word) : Word :=
  let upper : Half := pair.setWidth 16
  let lower : Half := (pair >>> 16).setWidth 16
  let lower := setField lower 0 11 (displacement >>> 1)
  let upper := setField upper 0 10 (displacement >>> 12)
  let upper := setField upper 10 1 (displacement >>> 24)
  let sign : Word := ((upper >>> 10) &&& 1#16).setWidth 32
  let lower := setField lower 11 1 (sign ^^^ (~~~displacement >>> 22))
  let lower := setField lower 13 1 (sign ^^^ (~~~displacement >>> 23))
  (lower ++ upper : BitVec (16 + 16))

/-- The immediate of a Thumb `MOVW` or `MOVT`, put into its opcode piece by piece. -/
def patchThmMov (opcode imm8 imm3 imm1 imm4 : Word) : Word :=
  (opcode &&& 0x8F00FBF0#32) ||| ((imm8 <<< 16) ||| (imm3 <<< 28) ||| (imm1 <<< 10) ||| imm4)

def patchThmMovw (opcode target : Word) : Word :=
  patchThmMov opcode (target &&& 0xFF#32) ((target >>> 8) &&& 0x7#32) ((target >>> 11) &&& 0x1#32)
    ((target >>> 12) &&& 0xF#32)

def patchThmMovt (opcode target : Word) : Word :=
  patchThmMov opcode ((target >>> 16) &&& 0xFF#32) ((target >>> 24) &&& 0x7#32)
    ((target >>> 27) &&& 0x1#32) ((target >>> 28) &&& 0xF#32)

/-- `apply_one_relocation`: the flag it returns and the memory. -/
def applyOneRelocation (maps : List MemoryMap) (relocationType : Byte) (S A P : Word) :
    Except Trap (Bool × List MemoryMap) :=
  let displacement := A - P + S
  match getPointerUnchecked maps P with
  | none => .ok (false, maps)
  | some data =>
    if relocationType = R_ARM_ABS32 ∨ relocationType = R_ARM_TARGET1 then do
      let maps ← writeWord maps data (S + A)
      return (true, maps)
    else if relocationType = R_ARM_PREL31 then do
      let maps ← writeWord maps data (displacement &&& 0x7FFFFFFF#32)
      return (true, maps)
    else if relocationType = R_ARM_THM_CALL then do
      let pair ← readWord maps data
      let maps ← writeWord maps data (patchThmCall pair displacement)
      return (true, maps)
    else if relocationType = R_ARM_THM_MOVW_ABS_NC then do
      let opcode ← readWord maps data
      let maps ← writeWord maps data (patchThmMovw opcode (S + A))
      return (true, maps)
    else if relocationType = R_ARM_THM_MOVT_ABS then do
      let opcode ← readWord maps data
      let maps ← writeWord maps data (patchThmMovt opcode (S + A))
      return (true, maps)
    else .ok (false, maps)

/-! ## A relocation as a patch of one word -/

/-- The types that have a case of their own. -/
def Implemented (relocationType : Byte) : Prop :=
  relocationType = R_ARM_ABS32 ∨ relocationType = R_ARM_TARGET1 ∨ relocationType = R_ARM_PREL31 ∨
    relocationType = R_ARM_THM_CALL ∨ relocationType = R_ARM_THM_MOVW_ABS_NC ∨
    relocationType = R_ARM_THM_MOVT_ABS

instance (relocationType : Byte) : Decidable (Implemented relocationType) :=
  inferInstanceAs (Decidable (_ ∨ _))

/-- The new word at `P`, from the old one. -/
def patchedWord (relocationType : Byte) (S A P old : Word) : Word :=
  if relocationType = R_ARM_ABS32 ∨ relocationType = R_ARM_TARGET1 then S + A
  else if relocationType = R_ARM_PREL31 then (A - P + S) &&& 0x7FFFFFFF#32
  else if relocationType = R_ARM_THM_CALL then patchThmCall old (A - P + S)
  else if relocationType = R_ARM_THM_MOVW_ABS_NC then patchThmMovw old (S + A)
  else patchThmMovt old (S + A)

variable {maps maps' : List MemoryMap} {relocationType : Byte} {S A P : Word}

/-- An unmapped place or a type without a case is refused, and memory is kept. -/
theorem applyOneRelocation_refused (h : ¬ (Implemented relocationType ∧ Mapped maps P)) :
    applyOneRelocation maps relocationType S A P = .ok (false, maps) := by
  unfold applyOneRelocation
  cases hp : getPointerUnchecked maps P with
  | none => rfl
  | some p =>
    have himpl : ¬ Implemented relocationType := fun hi => h ⟨hi, mapped_of_some hp⟩
    simp only [Implemented, not_or] at himpl
    obtain ⟨h1, h2, h3, h4, h5, h6⟩ := himpl
    simp only [h1, h2, h3, h4, h5, h6, or_self, if_false]

/-- Every implemented type reads the word at `P` and writes the patched one back. -/
theorem applyOneRelocation_eq {p : HostPtr} (hi : Implemented relocationType)
    (hp : getPointerUnchecked maps P = some p) :
    applyOneRelocation maps relocationType S A P = do
      let old ← readWord maps p
      let maps ← writeWord maps p (patchedWord relocationType S A P old)
      return (true, maps) := by
  -- two of the types do not need the old word; reading it traps where writing it does
  have hread : ∀ (v : Word), (writeWord maps p v >>= fun maps => .ok (true, maps)) =
      (readWord maps p >>= fun _ => writeWord maps p v >>= fun maps => .ok (true, maps)) := by
    intro v
    by_cases hin : InBuffer maps p 4
    · obtain ⟨old, hold⟩ := readWord_isOk_iff.mpr hin
      rw [hold]
      rfl
    · rw [readWord_error hin, writeWord_error hin]
      rfl
  unfold applyOneRelocation patchedWord
  simp only [hp]
  by_cases habs : relocationType = R_ARM_ABS32 ∨ relocationType = R_ARM_TARGET1
  · simp only [if_pos habs]
    exact hread _
  · simp only [if_neg habs]
    by_cases hprel : relocationType = R_ARM_PREL31
    · simp only [if_pos hprel]
      exact hread _
    · simp only [if_neg hprel]
      by_cases hcall : relocationType = R_ARM_THM_CALL
      · simp only [if_pos hcall]
      · simp only [if_neg hcall]
        by_cases hmovw : relocationType = R_ARM_THM_MOVW_ABS_NC
        · simp only [if_pos hmovw]
        · have hmovt : relocationType = R_ARM_THM_MOVT_ABS := by
            unfold Implemented at hi
            tauto
          simp only [if_neg hmovw, if_pos hmovt]

/-- A place that is mapped, with its whole word, is patched. -/
theorem applyOneRelocation_ok (hi : Implemented relocationType) (hm : Mapped maps P)
    (hf : WordFits maps P) :
    ∃ p old maps', getPointerUnchecked maps P = some p ∧ readWord maps p = .ok old ∧
      writeWord maps p (patchedWord relocationType S A P old) = .ok maps' ∧
      applyOneRelocation maps relocationType S A P = .ok (true, maps') := by
  obtain ⟨p, hp⟩ := mapped_iff.mp hm
  obtain ⟨old, hold⟩ := readWord_isOk_iff.mpr (hf p hp)
  obtain ⟨maps', hmaps'⟩ :=
    writeWord_isOk_iff (v := patchedWord relocationType S A P old).mpr (hf p hp)
  refine ⟨p, old, maps', hp, hold, hmaps', ?_⟩
  rw [applyOneRelocation_eq hi hp, hold, ok_bind, hmaps', ok_bind]
  rfl

/-- A word that sticks out of its map has no defined result. -/
theorem applyOneRelocation_error (hi : Implemented relocationType) (hf : ¬ WordFits maps P) :
    applyOneRelocation maps relocationType S A P = .error .outOfBounds := by
  unfold WordFits at hf
  push Not at hf
  obtain ⟨p, hp, hin⟩ := hf
  rw [applyOneRelocation_eq hi hp, readWord_error hin]
  rfl

/-- What one relocation can do: refuse the entry and keep the memory, or patch the word. -/
theorem applyOneRelocation_cases {b : Bool}
    (h : applyOneRelocation maps relocationType S A P = .ok (b, maps')) :
    (b = false ∧ maps' = maps) ∨ (b = true ∧ ∃ p old, getPointerUnchecked maps P = some p ∧
      readWord maps p = .ok old ∧
      writeWord maps p (patchedWord relocationType S A P old) = .ok maps') := by
  by_cases hacc : Implemented relocationType ∧ Mapped maps P
  · by_cases hf : WordFits maps P
    · obtain ⟨p, old, maps'', hp, hread, hwrite, hok⟩ :=
        applyOneRelocation_ok (S := S) (A := A) hacc.1 hacc.2 hf
      rw [hok] at h
      cases h
      exact .inr ⟨rfl, p, old, hp, hread, hwrite⟩
    · rw [applyOneRelocation_error hacc.1 hf] at h
      cases h
  · rw [applyOneRelocation_refused hacc] at h
    cases h
    exact .inl ⟨rfl, rfl⟩

/-- What an accepted relocation leaves: the patched word at its place. -/
theorem applyOneRelocation_true
    (h : applyOneRelocation maps relocationType S A P = .ok (true, maps')) :
    ∃ p old, getPointerUnchecked maps P = some p ∧ readWord maps p = .ok old ∧
      writeWord maps p (patchedWord relocationType S A P old) = .ok maps' :=
  ((applyOneRelocation_cases h).resolve_left fun hno => nomatch hno.1).2

theorem applyOneRelocation_sameMaps {b : Bool}
    (h : applyOneRelocation maps relocationType S A P = .ok (b, maps')) : SameMaps maps maps' := by
  rcases applyOneRelocation_cases h with ⟨_, rfl⟩ | ⟨_, _, _, _, _, hwrite⟩
  · exact .refl _
  · exact writeWord_sameMaps hwrite

/-! ## The value a Thumb `MOVW`/`MOVT` pair loads -/

/-- The immediate `imm4:i:imm3:imm8` of a Thumb `MOVW` or `MOVT`. -/
def thmMovImm (opcode : Word) : Word :=
  ((opcode &&& 0xF#32) <<< 12) ||| (((opcode >>> 10) &&& 0x1#32) <<< 11) |||
    (((opcode >>> 28) &&& 0x7#32) <<< 8) ||| ((opcode >>> 16) &&& 0xFF#32)

/-- What a register holds after the pair: `MOVW` loads the low half, `MOVT` the high one. -/
def thmPairValue (movw movt : Word) : Word := (thmMovImm movt <<< 16) ||| thmMovImm movw

theorem thmMovImm_patchThmMovw (opcode target : Word) :
    thmMovImm (patchThmMovw opcode target) = target &&& 0xFFFF#32 := by
  apply BitVec.eq_of_getElem_eq
  intro i hi
  unfold thmMovImm patchThmMovw patchThmMov
  interval_cases i <;> simp

/-- `MOVT` takes the high half the way `MOVW` takes the low one. -/
theorem patchThmMovt_eq (opcode target : Word) :
    patchThmMovt opcode target = patchThmMovw opcode (target >>> 16) := by
  unfold patchThmMovt patchThmMovw
  simp only [← BitVec.shiftRight_add, Nat.reduceAdd]

theorem thmPairValue_patched (opcode opcode' target : Word) :
    thmPairValue (patchThmMovw opcode target) (patchThmMovt opcode' target) = target := by
  rw [thmPairValue, patchThmMovt_eq, thmMovImm_patchThmMovw, thmMovImm_patchThmMovw]
  apply BitVec.eq_of_getElem_eq
  intro i hi
  interval_cases i <;> simp

end Betavita.Loader
