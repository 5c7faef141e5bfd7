import Betavita.Hle.Kernel
import Mathlib.Data.Fintype.Basic
import Mathlib.Tactic.FinCases

/-!
# main.cpp — the registers of the CPU engine

The kernel numbers the registers 0 to 16, the engine has names for them. A register
holds what was last written to it, and a run of the engine is an arbitrary
transformation of the register file.
-/

namespace Betavita.Processor

open Memory Hle

/-- The `UC_ARM_REG_*` names the emulator uses; `r n` is `UC_ARM_REG_R0 + n`. -/
inductive ArmReg
  | r (n : Fin 13)
  | sp
  | lr
  | pc
  | cpsr
deriving DecidableEq, Repr

/-- The registers of `engine`. -/
abbrev RegisterFile := ArmReg → Word

/-- `uc_reg_write`. -/
def ucRegWrite (engine : RegisterFile) (reg : ArmReg) (value : Word) : RegisterFile :=
  Function.update engine reg value

/-- `read_register_from_api`. The core number is not used. -/
def readRegisterFromApi (engine : RegisterFile) (regnum : Int) : Word :=
  if regnum = 15 then engine .pc
  else if regnum = 14 then engine .lr
  else if regnum = 13 then engine .sp
  else if regnum = 16 then engine .cpsr
  else if h : 0 ≤ regnum ∧ regnum ≤ 12 then engine (.r ⟨regnum.toNat, by omega⟩)
  else 0

/-- `write_register_from_api`. -/
def writeRegisterFromApi (engine : RegisterFile) (regnum : Int) (value : Word) : RegisterFile :=
  if regnum = 15 then ucRegWrite engine .pc value
  else if regnum = 14 then ucRegWrite engine .lr value
  else if regnum = 13 then ucRegWrite engine .sp value
  else if regnum = 16 then ucRegWrite engine .cpsr value
  else if h : 0 ≤ regnum ∧ regnum ≤ 12 then ucRegWrite engine (.r ⟨regnum.toNat, by omega⟩) value
  else engine

/-- `get_available_core`. -/
def getAvailableCore : Fin 4 := 0

/-- The address at which `run_cpu_for` starts the engine: the program counter of the
context, with its Thumb bit. -/
def startPc (context : RegisterContext) : Word :=
  context.reg ⟨15, by decide⟩ ||| if context.cpsr &&& 0x20#32 ≠ 0 then 1#32 else 0#32

/-! ## Saving and restoring -/

/-- The name of a numbered register. -/
def armReg (i : Fin 16) : ArmReg :=
  if h : i.val < 13 then .r ⟨i.val, h⟩
  else if i.val = 13 then .sp
  else if i.val = 14 then .lr
  else .pc

theorem armReg_injective : Function.Injective armReg := by
  unfold Function.Injective
  decide

theorem armReg_ne_cpsr : ∀ i, armReg i ≠ .cpsr := by decide

theorem armReg_or_cpsr (reg : ArmReg) : reg = .cpsr ∨ ∃ i, armReg i = reg := by
  cases reg with
  | r n => exact .inr ⟨⟨n.val, by omega⟩, by simp [armReg]⟩
  | sp => exact .inr ⟨13, rfl⟩
  | lr => exact .inr ⟨14, rfl⟩
  | pc => exact .inr ⟨15, rfl⟩
  | cpsr => exact .inl rfl

theorem readRegisterFromApi_num (engine : RegisterFile) (i : Fin 16) :
    readRegisterFromApi engine i.val = engine (armReg i) := by
  fin_cases i <;> rfl

theorem writeRegisterFromApi_num (engine : RegisterFile) (i : Fin 16) (value : Word) :
    writeRegisterFromApi engine i.val value = Function.update engine (armReg i) value := by
  fin_cases i <;> rfl

theorem writeRegisterFromApi_cpsr (engine : RegisterFile) (value : Word) :
    writeRegisterFromApi engine 16 value = Function.update engine .cpsr value := rfl

/-- The register file that a context describes. -/
def RegisterFile.ofContext (context : RegisterContext) : RegisterFile
  | .r n => context.reg ⟨n.val, by omega⟩
  | .sp => context.reg ⟨13, by decide⟩
  | .lr => context.reg ⟨14, by decide⟩
  | .pc => context.reg ⟨15, by decide⟩
  | .cpsr => context.cpsr

theorem RegisterFile.ofContext_armReg (context : RegisterContext) (i : Fin 16) :
    RegisterFile.ofContext context (armReg i) = context.reg i := by
  fin_cases i <;> rfl

/-- The loop that hands the registers of a context to the engine. -/
def writeRegisters (engine : RegisterFile) (context : RegisterContext) : RegisterFile :=
  (List.finRange 16).foldl (fun engine i => writeRegisterFromApi engine i.val (context.reg i))
    engine

/-- The loop that saves the registers of the engine, and the program status. -/
def readContext (engine : RegisterFile) : RegisterContext where
  reg := fun i => readRegisterFromApi engine i.val
  cpsr := readRegisterFromApi engine 16

theorem foldl_writeRegister {context : RegisterContext} (l : List (Fin 16))
    (engine : RegisterFile) (i : Fin 16) :
    l.foldl (fun engine i => writeRegisterFromApi engine i.val (context.reg i)) engine (armReg i) =
      if i ∈ l then context.reg i else engine (armReg i) := by
  induction l generalizing engine with
  | nil => rfl
  | cons j l ih =>
    rw [List.foldl_cons, ih, writeRegisterFromApi_num]
    by_cases hij : i = j
    · subst hij
      simp
    · have hne : armReg i ≠ armReg j := fun h => hij (armReg_injective h)
      simp [hij, Function.update_of_ne hne]

/-- After the two writes the engine holds the context. -/
theorem writeRegisters_cpsr (engine : RegisterFile) (context : RegisterContext) :
    writeRegisterFromApi (writeRegisters engine context) 16 context.cpsr =
      RegisterFile.ofContext context := by
  funext reg
  rw [writeRegisterFromApi_cpsr]
  rcases armReg_or_cpsr reg with rfl | ⟨i, rfl⟩
  · exact Function.update_self ..
  · rw [Function.update_of_ne (armReg_ne_cpsr i), RegisterFile.ofContext_armReg, writeRegisters,
      foldl_writeRegister, if_pos (List.mem_finRange i)]

/-- Restoring what was saved gives the same registers. -/
theorem RegisterFile.ofContext_readContext (engine : RegisterFile) :
    RegisterFile.ofContext (readContext engine) = engine := by
  funext reg
  rcases armReg_or_cpsr reg with rfl | ⟨i, rfl⟩
  · rfl
  · rw [RegisterFile.ofContext_armReg]
    exact readRegisterFromApi_num engine i

end Betavita.Processor
