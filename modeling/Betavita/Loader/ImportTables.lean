import Betavita.Lib.CountedLoop
import Betavita.Lib.CursorWalk
import Betavita.Loader.Import

/-!
# The walk over the import descriptors

What a round on a descriptor reads and writes, in the memory it finds, and what it accepts.
The stubs are written while the tables are read, so a function is looked at in the memory
that the functions before it leave.
-/

namespace Betavita.Loader

open Memory Hle CountedLoop Results

/-! ## The loops over the functions and the variables -/

/-- Turn `i` of the loop over the functions. -/
def functionTurn (nid entryAddr : HostPtr) : Turn Trap (List FunctionImport × List MemoryMap) :=
  fun i s => do
    let entry ← readWord s.2 (entryAddr.add (4 * i))
    match getPointerUnchecked s.2 entry with
    | none => return (s, false)
    | some entryData =>
      let patchNid ← readWord s.2 (nid.add (4 * i))
      let maps ← patchFunctionImportData s.2 entryData patchNid
      let importNid ← readWord maps (nid.add (4 * i))
      let importEntry ← readWord maps (entryAddr.add (4 * i))
      return ((s.1 ++ [⟨importNid, importEntry⟩], maps), true)

/-- The loop over the functions has the memory `m` when it gets to function `i`. -/
def FindsFunction (maps : List MemoryMap) (nid entryAddr : HostPtr) (i : Nat)
    (m : List MemoryMap) : Prop :=
  ∃ fs, Gets (functionTurn nid entryAddr) 0 ([], maps) i (fs, m)

/-- The words of a function are in the buffers of their tables, and its stub is in one. -/
def FunctionReads (maps : List MemoryMap) (nid entryAddr : HostPtr) : Prop :=
  InBuffer maps entryAddr 4 ∧
    ∀ entry data, readWord maps entryAddr = .ok entry →
      getPointerUnchecked maps entry = some data → InBuffer maps nid 4 ∧ InBuffer maps data 12

/-- The entry address of a function is mapped. -/
def FunctionMapped (maps : List MemoryMap) (entryAddr : HostPtr) : Prop :=
  ∃ entry, readWord maps entryAddr = .ok entry ∧ Mapped maps entry

/-- What a turn of the loop over the variables does with variable `j`. -/
def variableTest (maps : List MemoryMap) (entryAddr : HostPtr) (j : Nat) : Except Trap Bool := do
  let entry ← readWord maps (entryAddr.add (4 * j))
  match getPointerUnchecked maps entry with
  | none => return false
  | some data =>
    let relocationDataSize ← readWord maps data
    return decide ((relocationDataSize >>> 4) &&& 0xFFFFFF#32 = 0)

/-- The word of a variable is in the buffer of its table, and its record is in one. -/
def VariableReads (maps : List MemoryMap) (entryAddr : HostPtr) : Prop :=
  InBuffer maps entryAddr 4 ∧
    ∀ entry data, readWord maps entryAddr = .ok entry →
      getPointerUnchecked maps entry = some data → InBuffer maps data 4

/-- The record of a variable is mapped, and has relocation size 0. -/
def VariablePlain (maps : List MemoryMap) (entryAddr : HostPtr) : Prop :=
  ∃ entry data size, readWord maps entryAddr = .ok entry ∧
    getPointerUnchecked maps entry = some data ∧ readWord maps data = .ok size ∧
    (size >>> 4) &&& 0xFFFFFF#32 = 0

section Loops

variable {maps : List MemoryMap} {nid entryAddr : HostPtr} {i : Nat}

theorem importFunctions_eq {n : Nat} {fs : List FunctionImport} :
    importFunctions n (nid.add (4 * i)) (entryAddr.add (4 * i)) fs maps =
      (turns (functionTurn nid entryAddr) n i (fs, maps)).map
        fun r => (if r.2 then some r.1.1 else none, r.1.2) := by
  induction n generalizing i fs maps with
  | zero => rfl
  | succ n ih =>
    rw [importFunctions, turns, functionTurn]
    cases readWord maps (entryAddr.add (4 * i)) with
    | error e => rfl
    | ok entry =>
      simp only [ok_bind]
      cases getPointerUnchecked maps entry with
      | none => rfl
      | some entryData =>
        simp only
        cases readWord maps (nid.add (4 * i)) with
        | error e => rfl
        | ok patchNid =>
          simp only [ok_bind]
          cases patchFunctionImportData maps entryData patchNid with
          | error e => rfl
          | ok maps₁ =>
            simp only [ok_bind]
            cases readWord maps₁ (nid.add (4 * i)) with
            | error e => rfl
            | ok importNid =>
              simp only [ok_bind]
              cases readWord maps₁ (entryAddr.add (4 * i)) with
              | error e => rfl
              | ok importEntry =>
                simp only [ok_bind, HostPtr.add_add, ← Nat.mul_succ]
                exact ih

/-- What a turn can do: leave the loop at an entry address that is not mapped, or write the stub
and register what the tables hold after that. -/
theorem functionTurn_ok {fs fs' : List FunctionImport} {maps' : List MemoryMap} {goesOn : Bool} :
    functionTurn nid entryAddr i (fs, maps) = .ok ((fs', maps'), goesOn) ↔
      ∃ entry, readWord maps (entryAddr.add (4 * i)) = .ok entry ∧
        ((getPointerUnchecked maps entry = none ∧ fs' = fs ∧ maps' = maps ∧ goesOn = false) ∨
        ∃ data patchNid importNid importEntry, getPointerUnchecked maps entry = some data ∧
          readWord maps (nid.add (4 * i)) = .ok patchNid ∧
          writeBytes maps data (stubBytes patchNid) = .ok maps' ∧
          readWord maps' (nid.add (4 * i)) = .ok importNid ∧
          readWord maps' (entryAddr.add (4 * i)) = .ok importEntry ∧
          fs' = fs ++ [⟨importNid, importEntry⟩] ∧ goesOn = true) := by
  constructor
  · intro h
    obtain ⟨entry, hentry, h⟩ := bind_ok.mp h
    refine ⟨entry, hentry, ?_⟩
    cases hdata : getPointerUnchecked maps entry with
    | none =>
      rw [hdata] at h
      cases h
      exact .inl ⟨rfl, rfl, rfl, rfl⟩
    | some data =>
      rw [hdata] at h
      obtain ⟨patchNid, hnid, h⟩ := bind_ok.mp h
      obtain ⟨maps₁, hpatch, h⟩ := bind_ok.mp h
      obtain ⟨importNid, hnid', h⟩ := bind_ok.mp h
      obtain ⟨importEntry, hentry', h⟩ := bind_ok.mp h
      cases h
      rw [patchFunctionImportData_eq] at hpatch
      exact .inr ⟨data, patchNid, importNid, importEntry, rfl, hnid, hpatch, hnid', hentry',
        rfl, rfl⟩
  · intro h
    obtain ⟨entry, hentry, h⟩ := h
    rw [functionTurn, hentry, ok_bind]
    rcases h with ⟨hdata, rfl, rfl, rfl⟩ |
      ⟨data, patchNid, importNid, importEntry, hdata, hnid, hpatch, hnid', hentry', rfl, rfl⟩
    · rw [hdata]
      rfl
    · simp only [hdata, hnid, ok_bind, patchFunctionImportData_eq, hpatch, hnid', hentry']
      rfl

theorem functionTurn_isOk_iff {fs : List FunctionImport} :
    (∃ r, functionTurn nid entryAddr i (fs, maps) = .ok r) ↔
      FunctionReads maps (nid.add (4 * i)) (entryAddr.add (4 * i)) := by
  constructor
  · intro h
    obtain ⟨r, h⟩ := h
    obtain ⟨entry, hentry, h⟩ := functionTurn_ok.mp h
    refine ⟨readWord_isOk_iff.mp ⟨entry, hentry⟩, fun entry' data hentry' hdata => ?_⟩
    cases hentry.symm.trans hentry'
    rcases h with ⟨hnone, _⟩ | ⟨data', patchNid, _, _, hdata', hnid, hpatch, _⟩
    · cases hnone.symm.trans hdata
    · cases hdata.symm.trans hdata'
      have hstub := writeBytes_isOk_iff.mp ⟨_, hpatch⟩
      rw [stubBytes_length] at hstub
      exact ⟨readWord_isOk_iff.mp ⟨patchNid, hnid⟩, hstub⟩
  · intro h
    obtain ⟨hentryIn, hrest⟩ := h
    obtain ⟨entry, hentry⟩ := readWord_isOk_iff.mpr hentryIn
    cases hdata : getPointerUnchecked maps entry with
    | none => exact ⟨_, functionTurn_ok.mpr ⟨entry, hentry, .inl ⟨hdata, rfl, rfl, rfl⟩⟩⟩
    | some data =>
      obtain ⟨hnidIn, hstub⟩ := hrest entry data hentry hdata
      obtain ⟨patchNid, hnid⟩ := readWord_isOk_iff.mpr hnidIn
      rw [← stubBytes_length patchNid] at hstub
      obtain ⟨maps₁, hpatch⟩ := writeBytes_isOk_iff.mpr hstub
      -- the stub keeps the buffers, so the tables can be read again
      have hsame := writeBytes_sameMaps hpatch
      obtain ⟨importNid, hnid'⟩ := readWord_isOk_iff.mpr (hsame.inBuffer hnidIn)
      obtain ⟨importEntry, hentry'⟩ := readWord_isOk_iff.mpr (hsame.inBuffer hentryIn)
      exact ⟨_, functionTurn_ok.mpr ⟨entry, hentry, .inr ⟨data, patchNid, importNid, importEntry,
        hdata, hnid, hpatch, hnid', hentry', rfl, rfl⟩⟩⟩

theorem functionTurn_goesOn_iff {fs : List FunctionImport}
    (h : ∃ r, functionTurn nid entryAddr i (fs, maps) = .ok r) :
    (∃ s, functionTurn nid entryAddr i (fs, maps) = .ok (s, true)) ↔
      FunctionMapped maps (entryAddr.add (4 * i)) := by
  obtain ⟨⟨s, goesOn⟩, h⟩ := h
  obtain ⟨entry, hentry, hcases⟩ := functionTurn_ok.mp h
  constructor
  · intro hgoes
    obtain ⟨s', hgoes⟩ := hgoes
    cases h.symm.trans hgoes
    rcases hcases with ⟨_, _, _, hfalse⟩ | ⟨_, _, _, _, hdata, _⟩
    · cases hfalse
    · exact ⟨entry, hentry, mapped_of_some hdata⟩
  · intro hmapped
    obtain ⟨entry', hentry', hmapped⟩ := hmapped
    cases hentry.symm.trans hentry'
    obtain ⟨data, hdata⟩ := mapped_iff.mp hmapped
    rcases hcases with ⟨hnone, _⟩ | ⟨_, _, _, _, _, _, _, _, _, _, rfl⟩
    · cases hnone.symm.trans hdata
    · exact ⟨s, h⟩

/-- A turn keeps the maps, and treats the memory the same whatever was registered before. -/
theorem functionTurn_memory {fs fs' : List FunctionImport} {maps' : List MemoryMap}
    {goesOn : Bool} (h : functionTurn nid entryAddr i (fs, maps) = .ok ((fs', maps'), goesOn)) :
    SameMaps maps maps' ∧ ∀ gs, ∃ gs',
      functionTurn nid entryAddr i (gs, maps) = .ok ((gs', maps'), goesOn) := by
  obtain ⟨entry, hentry, hcases⟩ := functionTurn_ok.mp h
  rcases hcases with ⟨hdata, rfl, rfl, rfl⟩ |
    ⟨data, patchNid, importNid, importEntry, hdata, hnid, hpatch, hnid', hentry', rfl, rfl⟩
  · refine ⟨.refl _, fun gs => ⟨gs, functionTurn_ok.mpr ⟨entry, hentry, .inl ?_⟩⟩⟩
    exact ⟨hdata, rfl, rfl, rfl⟩
  · refine ⟨writeBytes_sameMaps hpatch, fun gs => ⟨gs ++ [⟨importNid, importEntry⟩], ?_⟩⟩
    refine functionTurn_ok.mpr ⟨entry, hentry, .inr ?_⟩
    exact ⟨data, patchNid, importNid, importEntry, hdata, hnid, hpatch, hnid', hentry', rfl, rfl⟩

theorem importVariables_eq {n : Nat} : importVariables maps n (entryAddr.add (4 * i)) =
    (turns (check (variableTest maps entryAddr)) n i ()).map Prod.snd := by
  induction n generalizing i with
  | zero => rfl
  | succ n ih =>
    rw [importVariables, turns, check, variableTest]
    cases readWord maps (entryAddr.add (4 * i)) with
    | error e => rfl
    | ok entry =>
      simp only [ok_bind]
      cases getPointerUnchecked maps entry with
      | none => rfl
      | some data =>
        simp only
        cases readWord maps data with
        | error e => rfl
        | ok size =>
          simp only [ok_bind]
          by_cases hsize : (size >>> 4) &&& 0xFFFFFF#32 = 0
          · simp only [hsize, ne_eq, not_true_eq_false, if_false, HostPtr.add_add, ← Nat.mul_succ,
              ih]
            rfl
          · simp only [hsize, ne_eq, not_false_eq_true, if_true]
            rfl

theorem variableTest_isOk_iff : (∃ b, variableTest maps entryAddr i = .ok b) ↔
    VariableReads maps (entryAddr.add (4 * i)) := by
  constructor
  · intro h
    obtain ⟨b, h⟩ := h
    obtain ⟨entry, hentry, h⟩ := bind_ok.mp h
    refine ⟨readWord_isOk_iff.mp ⟨entry, hentry⟩, fun entry' data hentry' hdata => ?_⟩
    cases hentry.symm.trans hentry'
    rw [hdata] at h
    obtain ⟨size, hsize, _⟩ := bind_ok.mp h
    exact readWord_isOk_iff.mp ⟨size, hsize⟩
  · intro h
    obtain ⟨hentryIn, hrest⟩ := h
    obtain ⟨entry, hentry⟩ := readWord_isOk_iff.mpr hentryIn
    rw [variableTest, hentry, ok_bind]
    cases hdata : getPointerUnchecked maps entry with
    | none => exact ⟨_, rfl⟩
    | some data =>
      obtain ⟨size, hsize⟩ := readWord_isOk_iff.mpr (hrest entry data hentry hdata)
      simp only [hsize, ok_bind]
      exact ⟨_, rfl⟩

theorem variableTest_true_iff : variableTest maps entryAddr i = .ok true ↔
    VariablePlain maps (entryAddr.add (4 * i)) := by
  constructor
  · intro h
    obtain ⟨entry, hentry, h⟩ := bind_ok.mp h
    cases hdata : getPointerUnchecked maps entry with
    | none =>
      rw [hdata] at h
      cases h
    | some data =>
      rw [hdata] at h
      obtain ⟨size, hsize, h⟩ := bind_ok.mp h
      exact ⟨entry, data, size, hentry, hdata, hsize, of_decide_eq_true (Except.ok.inj h)⟩
  · intro h
    obtain ⟨entry, data, size, hentry, hdata, hsize, hzero⟩ := h
    rw [variableTest, hentry, ok_bind, hdata]
    simp only [hsize, ok_bind, hzero]
    rfl

end Loops

/-! ## A descriptor -/

/-- The words of every variable that all variables before let the loop get to are mapped, if
there is a table to go over. -/
def VariablesRead (maps : List MemoryMap) (imports : ModuleImports) : Prop :=
  imports.varNidTable ≠ 0 → imports.varEntryTable ≠ 0 → Mapped maps imports.varNidTable →
    ∀ entryAddr, getPointerUnchecked maps imports.varEntryTable = some entryAddr →
      ∀ j < imports.numSymsVars.toNat,
        (∀ i < j, VariablePlain maps (entryAddr.add (4 * i))) →
          VariableReads maps (entryAddr.add (4 * j))

/-- Both tables are given only if they are mapped, and then all records have relocation size 0. -/
def VariablesAccepted (maps : List MemoryMap) (imports : ModuleImports) : Prop :=
  imports.varNidTable ≠ 0 → imports.varEntryTable ≠ 0 → Mapped maps imports.varNidTable ∧
    ∃ entryAddr, getPointerUnchecked maps imports.varEntryTable = some entryAddr ∧
      ∀ j < imports.numSymsVars.toNat, VariablePlain maps (entryAddr.add (4 * j))

/-- What a descriptor with both function tables makes the round read is mapped. -/
structure TablesRead (maps : List MemoryMap) (imports : ModuleImports)
    (nid entryAddr : HostPtr) : Prop where
  name : ∃ libraryName, readCString maps (getPointerUnchecked maps imports.libraryName) =
    .ok libraryName
  functions : ∀ i < imports.numSymsFuncs.toNat, ∀ m, FindsFunction maps nid entryAddr i m →
    FunctionReads m (nid.add (4 * i)) (entryAddr.add (4 * i))
  vars : ∀ m, FindsFunction maps nid entryAddr imports.numSymsFuncs.toNat m →
    VariablesRead m imports

/-- What a round reads of a descriptor is mapped. -/
def LibraryReads (maps : List MemoryMap) (import_ : HostPtr) : Prop :=
  InBuffer maps import_ 2 ∧ (readHalf maps import_ = .ok 0x34#16 → InBuffer maps import_ 0x2C ∧
    ∀ imports nid entryAddr, readModuleImports maps import_ = .ok imports →
      getPointerUnchecked maps imports.funcNidTable = some nid →
      getPointerUnchecked maps imports.funcEntryTable = some entryAddr →
      TablesRead maps imports nid entryAddr)

/-- The descriptor has size 0x34, both function tables are mapped, and so is every entry address
that is found; the variables are accepted after that. -/
def LibraryAccepted (maps : List MemoryMap) (import_ : HostPtr) : Prop :=
  readHalf maps import_ = .ok 0x34#16 ∧
    ∃ imports nid entryAddr, readModuleImports maps import_ = .ok imports ∧
      getPointerUnchecked maps imports.funcNidTable = some nid ∧
      getPointerUnchecked maps imports.funcEntryTable = some entryAddr ∧
      (∀ i < imports.numSymsFuncs.toNat, ∀ m, FindsFunction maps nid entryAddr i m →
        FunctionMapped m (entryAddr.add (4 * i))) ∧
      ∀ m, FindsFunction maps nid entryAddr imports.numSymsFuncs.toNat m →
        VariablesAccepted m imports

section Library

variable {maps : List MemoryMap} {imports : ModuleImports} {import_ : HostPtr}

theorem readModuleImports_isOk_iff :
    (∃ imports, readModuleImports maps import_ = .ok imports) ↔ InBuffer maps import_ 0x2C := by
  constructor
  · intro h
    obtain ⟨imports, h⟩ := h
    obtain ⟨_, _, h⟩ := bind_ok.mp h
    obtain ⟨_, _, h⟩ := bind_ok.mp h
    obtain ⟨_, _, h⟩ := bind_ok.mp h
    obtain ⟨_, _, h⟩ := bind_ok.mp h
    obtain ⟨_, _, h⟩ := bind_ok.mp h
    obtain ⟨_, _, h⟩ := bind_ok.mp h
    obtain ⟨_, _, h⟩ := bind_ok.mp h
    obtain ⟨varEntryTable, hlast, _⟩ := bind_ok.mp h
    exact (readWord_isOk_iff.mp ⟨varEntryTable, hlast⟩).whole (by decide)
  · intro h
    obtain ⟨funcs, hfuncs⟩ := h.readHalf (i := 0x06) (by decide)
    obtain ⟨vars, hvars⟩ := h.readHalf (i := 0x08) (by decide)
    obtain ⟨libraryNid, hlibraryNid⟩ := h.readWord (i := 0x10) (by decide)
    obtain ⟨libraryName, hlibraryName⟩ := h.readWord (i := 0x14) (by decide)
    obtain ⟨funcNid, hfuncNid⟩ := h.readWord (i := 0x1C) (by decide)
    obtain ⟨funcEntry, hfuncEntry⟩ := h.readWord (i := 0x20) (by decide)
    obtain ⟨varNid, hvarNid⟩ := h.readWord (i := 0x24) (by decide)
    obtain ⟨varEntry, hvarEntry⟩ := h.readWord (i := 0x28) (by decide)
    refine ⟨⟨funcs, vars, libraryNid, libraryName, funcNid, funcEntry, varNid, varEntry⟩, ?_⟩
    rw [readModuleImports, hfuncs, ok_bind, hvars, ok_bind, hlibraryNid, ok_bind, hlibraryName,
      ok_bind, hfuncNid, ok_bind, hfuncEntry, ok_bind, hvarNid, ok_bind, hvarEntry, ok_bind]
    rfl

theorem importFunctions_zero {nid entryAddr : HostPtr} {n : Nat} :
    importFunctions n nid entryAddr [] maps =
      (turns (functionTurn nid entryAddr) n 0 ([], maps)).map
        fun r => (if r.2 then some r.1.1 else none, r.1.2) := by
  rw [← importFunctions_eq, Nat.mul_zero, HostPtr.add_zero, HostPtr.add_zero]

theorem importVariables_zero {entryAddr : HostPtr} {n : Nat} :
    importVariables maps n entryAddr =
      (turns (check (variableTest maps entryAddr)) n 0 ()).map Prod.snd := by
  rw [← importVariables_eq, Nat.mul_zero, HostPtr.add_zero]

theorem importVariables_isOk_iff {entryAddr : HostPtr} {n : Nat} :
    (∃ b, importVariables maps n entryAddr = .ok b) ↔
      ∀ j < n, (∀ i < j, VariablePlain maps (entryAddr.add (4 * i))) →
        VariableReads maps (entryAddr.add (4 * j)) := by
  rw [importVariables_zero, exists_map_ok]
  exact turns_check_isOk_iff (fun _ => variableTest_isOk_iff) (fun _ _ => variableTest_true_iff)

theorem importVariables_true_iff {entryAddr : HostPtr} {n : Nat}
    (h : ∃ b, importVariables maps n entryAddr = .ok b) :
    importVariables maps n entryAddr = .ok true ↔
      ∀ j < n, VariablePlain maps (entryAddr.add (4 * j)) := by
  rw [← turns_check_true_iff (fun _ => variableTest_isOk_iff)
    (fun _ _ => variableTest_true_iff) (importVariables_isOk_iff.mp h), importVariables_zero,
    map_ok]
  constructor
  · intro h
    obtain ⟨⟨⟨⟩, b⟩, hturns, rfl⟩ := h
    exact hturns
  · intro h
    exact ⟨_, h, rfl⟩

theorem checkVariables_isOk_iff :
    (∃ b, checkVariables maps imports = .ok b) ↔ VariablesRead maps imports := by
  unfold checkVariables VariablesRead Mapped
  by_cases hboth : imports.varNidTable ≠ 0 ∧ imports.varEntryTable ≠ 0
  · rw [if_pos hboth]
    rw [forall_prop_of_true hboth.1, forall_prop_of_true hboth.2]
    cases getPointerUnchecked maps imports.varNidTable with
    | none => simp
    | some _ =>
      cases getPointerUnchecked maps imports.varEntryTable with
      | none => simp
      | some entryAddr =>
        simp only [importVariables_isOk_iff]
        simp
  · rw [if_neg hboth]
    constructor
    · intro _ hnid hentry
      exact absurd ⟨hnid, hentry⟩ hboth
    · intro _
      exact ⟨_, rfl⟩

theorem checkVariables_true_iff (h : ∃ b, checkVariables maps imports = .ok b) :
    checkVariables maps imports = .ok true ↔ VariablesAccepted maps imports := by
  unfold checkVariables at h ⊢
  unfold VariablesAccepted Mapped
  by_cases hboth : imports.varNidTable ≠ 0 ∧ imports.varEntryTable ≠ 0
  · rw [if_pos hboth] at h ⊢
    rw [forall_prop_of_true hboth.1, forall_prop_of_true hboth.2]
    cases hnid : getPointerUnchecked maps imports.varNidTable with
    | none => simp
    | some _ =>
      cases hentry : getPointerUnchecked maps imports.varEntryTable with
      | none => simp
      | some entryAddr =>
        rw [hnid, hentry] at h
        simp [importVariables_true_iff h]
  · rw [if_neg hboth]
    constructor
    · intro _ hnid hentry
      exact absurd ⟨hnid, hentry⟩ hboth
    · intro _
      rfl

/-- A round over a descriptor of the size 0x34 with both function tables. -/
theorem importLibrary_eq {nid entryAddr : HostPtr} (hsize : readHalf maps import_ = .ok 0x34#16)
    (himports : readModuleImports maps import_ = .ok imports)
    (hnid : getPointerUnchecked maps imports.funcNidTable = some nid)
    (hentry : getPointerUnchecked maps imports.funcEntryTable = some entryAddr) :
    importLibrary import_ maps =
      (readCString maps (getPointerUnchecked maps imports.libraryName) >>= fun libraryName =>
        turns (functionTurn nid entryAddr) imports.numSymsFuncs.toNat 0 ([], maps) >>= fun r =>
          if r.2 then (checkVariables r.1.2 imports).map fun checked =>
            (if checked then some ⟨libraryName, imports.libraryNid, r.1.1⟩ else none, r.1.2)
          else .ok (none, r.1.2)) := by
  rw [importLibrary, hsize, ok_bind, if_neg (by decide), if_pos rfl, himports, ok_bind]
  simp only [hnid, hentry, importFunctions_zero]
  congr 1
  funext libraryName
  cases turns (functionTurn nid entryAddr) imports.numSymsFuncs.toNat 0 ([], maps) with
  | error e => rfl
  | ok r =>
    obtain ⟨⟨fs, maps₁⟩, goesOn⟩ := r
    cases goesOn with
    | false => rfl
    | true =>
      simp only [ok_bind, Except.map, if_true]
      cases checkVariables maps₁ imports with
      | error e => rfl
      | ok checked =>
        cases checked with
        | false => rfl
        | true => rfl

/-- A round on another descriptor refuses it. -/
theorem importLibrary_of_size {size : Half} (hsize : readHalf maps import_ = .ok size)
    (h : size ≠ 0x34#16) : importLibrary import_ maps = .ok (none, maps) := by
  rw [importLibrary, hsize, ok_bind]
  simp only [h, if_false]
  split <;> rfl

theorem importLibrary_of_tables (hsize : readHalf maps import_ = .ok 0x34#16)
    (himports : readModuleImports maps import_ = .ok imports)
    (h : getPointerUnchecked maps imports.funcNidTable = none ∨
      getPointerUnchecked maps imports.funcEntryTable = none) :
    importLibrary import_ maps = .ok (none, maps) := by
  rw [importLibrary, hsize, ok_bind, if_neg (by decide), if_pos rfl, himports, ok_bind]
  cases hnid : getPointerUnchecked maps imports.funcNidTable with
  | none => rfl
  | some nid =>
    rw [h.resolve_left (by simp [hnid])]
    rfl

theorem findsFunction_iff {nid entryAddr : HostPtr} {i : Nat} {m : List MemoryMap} :
    FindsFunction maps nid entryAddr i m ↔
      ∃ fs, turns (functionTurn nid entryAddr) i 0 ([], maps) = .ok ((fs, m), true) := by
  unfold FindsFunction
  refine exists_congr fun fs => ?_
  rw [turns_true_iff, Nat.zero_add]

theorem functionTurns_isOk_iff {nid entryAddr : HostPtr} {n : Nat} :
    (∃ r, turns (functionTurn nid entryAddr) n 0 ([], maps) = .ok r) ↔
      ∀ i < n, ∀ m, FindsFunction maps nid entryAddr i m →
        FunctionReads m (nid.add (4 * i)) (entryAddr.add (4 * i)) := by
  rw [turns_isOk_iff]
  constructor
  · intro h i hi m hfinds
    obtain ⟨fs, hgets⟩ := hfinds
    exact functionTurn_isOk_iff.mp (h i (fs, m) hgets (by omega))
  · intro h i s hgets hi
    obtain ⟨fs, m⟩ := s
    exact functionTurn_isOk_iff.mpr (h i (by omega) m ⟨fs, hgets⟩)

theorem functionTurns_goesOn_iff {nid entryAddr : HostPtr} {n : Nat}
    (h : ∃ r, turns (functionTurn nid entryAddr) n 0 ([], maps) = .ok r) :
    (∃ s, turns (functionTurn nid entryAddr) n 0 ([], maps) = .ok (s, true)) ↔
      ∀ i < n, ∀ m, FindsFunction maps nid entryAddr i m →
        FunctionMapped m (entryAddr.add (4 * i)) := by
  have hdefined := turns_isOk_iff.mp h
  rw [turns_goesOn_iff]
  constructor
  · intro hgoes i hi m hfinds
    obtain ⟨fs, hgets⟩ := hfinds
    exact (functionTurn_goesOn_iff (hdefined i (fs, m) hgets (by omega))).mp
      (hgoes i (fs, m) hgets (by omega))
  · intro hmapped i s hgets hi
    obtain ⟨fs, m⟩ := s
    exact (functionTurn_goesOn_iff (hdefined i (fs, m) hgets hi)).mpr
      (hmapped i (by omega) m ⟨fs, hgets⟩)

/-- A round has a result exactly when all it reads is mapped. -/
theorem importLibrary_isOk_iff :
    (∃ r, importLibrary import_ maps = .ok r) ↔ LibraryReads maps import_ := by
  constructor
  · intro h
    obtain ⟨r, h⟩ := h
    obtain ⟨size, hsize, _⟩ := bind_ok.mp h
    refine ⟨readHalf_isOk_iff.mp ⟨size, hsize⟩, fun hsize => ?_⟩
    have hread : ∃ imports, readModuleImports maps import_ = .ok imports := by
      have h' := h
      rw [importLibrary, hsize, ok_bind, if_neg (by decide), if_pos rfl] at h'
      obtain ⟨imports, himports, _⟩ := bind_ok.mp h'
      exact ⟨imports, himports⟩
    refine ⟨readModuleImports_isOk_iff.mp hread, ?_⟩
    intro imports nid entryAddr himports hnid hentry
    rw [importLibrary_eq hsize himports hnid hentry] at h
    obtain ⟨libraryName, hname, h⟩ := bind_ok.mp h
    obtain ⟨s, hturns, h⟩ := bind_ok.mp h
    refine ⟨⟨libraryName, hname⟩, functionTurns_isOk_iff.mp ⟨s, hturns⟩, fun m hfinds => ?_⟩
    obtain ⟨fs, hfinds⟩ := findsFunction_iff.mp hfinds
    cases hturns.symm.trans hfinds
    exact checkVariables_isOk_iff.mp (exists_map_ok.mp ⟨r, h⟩)
  · intro h
    obtain ⟨hin, hreads⟩ := h
    obtain ⟨size, hsize⟩ := readHalf_isOk_iff.mpr hin
    by_cases heq : size = 0x34#16
    · subst heq
      obtain ⟨hdescriptor, htables⟩ := hreads hsize
      obtain ⟨imports, himports⟩ := readModuleImports_isOk_iff.mpr hdescriptor
      cases hnid : getPointerUnchecked maps imports.funcNidTable with
      | none => exact ⟨_, importLibrary_of_tables hsize himports (.inl hnid)⟩
      | some nid =>
        cases hentry : getPointerUnchecked maps imports.funcEntryTable with
        | none => exact ⟨_, importLibrary_of_tables hsize himports (.inr hentry)⟩
        | some entryAddr =>
          obtain ⟨⟨libraryName, hname⟩, hfunctions, hvars⟩ :=
            htables imports nid entryAddr himports hnid hentry
          obtain ⟨⟨⟨fs, m⟩, goesOn⟩, hturns⟩ := functionTurns_isOk_iff.mpr hfunctions
          rw [importLibrary_eq hsize himports hnid hentry, hname, ok_bind, hturns, ok_bind]
          cases goesOn with
          | false => exact ⟨_, rfl⟩
          | true =>
            rw [if_pos rfl]
            exact exists_map_ok.mpr
              (checkVariables_isOk_iff.mpr (hvars m (findsFunction_iff.mpr ⟨fs, hturns⟩)))
    · exact ⟨_, importLibrary_of_size hsize heq⟩

/-- Where it has a result, it is a library exactly when the descriptor is accepted. -/
theorem importLibrary_some_iff (hdefined : ∃ r, importLibrary import_ maps = .ok r) :
    (∃ library m, importLibrary import_ maps = .ok (some library, m)) ↔
      LibraryAccepted maps import_ := by
  obtain ⟨hin, hreads⟩ := importLibrary_isOk_iff.mp hdefined
  obtain ⟨size, hsize⟩ := readHalf_isOk_iff.mpr hin
  constructor
  · intro h
    obtain ⟨library, m, h⟩ := h
    have heq : size = 0x34#16 := by
      by_contra hne
      cases (importLibrary_of_size hsize hne).symm.trans h
    subst heq
    obtain ⟨imports, himports⟩ := readModuleImports_isOk_iff.mpr (hreads hsize).1
    cases hnid : getPointerUnchecked maps imports.funcNidTable with
    | none => cases (importLibrary_of_tables hsize himports (.inl hnid)).symm.trans h
    | some nid =>
      cases hentry : getPointerUnchecked maps imports.funcEntryTable with
      | none => cases (importLibrary_of_tables hsize himports (.inr hentry)).symm.trans h
      | some entryAddr =>
        rw [importLibrary_eq hsize himports hnid hentry] at h
        obtain ⟨libraryName, _, h⟩ := bind_ok.mp h
        obtain ⟨⟨⟨fs, m'⟩, goesOn⟩, hturns, h⟩ := bind_ok.mp h
        cases goesOn with
        | false => cases h
        | true =>
          rw [if_pos rfl] at h
          obtain ⟨checked, hchecked, h⟩ := map_ok.mp h
          cases checked with
          | false => cases h
          | true =>
            refine ⟨hsize, imports, nid, entryAddr, himports, hnid, hentry, ?_, ?_⟩
            · exact (functionTurns_goesOn_iff ⟨_, hturns⟩).mp ⟨_, hturns⟩
            · intro m'' hfinds
              obtain ⟨_, hfinds⟩ := findsFunction_iff.mp hfinds
              cases hturns.symm.trans hfinds
              exact (checkVariables_true_iff ⟨_, hchecked⟩).mp hchecked
  · intro h
    obtain ⟨hsize, imports, nid, entryAddr, himports, hnid, hentry, hfunctions, hvars⟩ := h
    obtain ⟨⟨libraryName, hname⟩, hreadsFunctions, hreadsVars⟩ :=
      (hreads hsize).2 imports nid entryAddr himports hnid hentry
    obtain ⟨⟨fs, m⟩, hturns⟩ :=
      (functionTurns_goesOn_iff (functionTurns_isOk_iff.mpr hreadsFunctions)).mpr hfunctions
    have hfinds := findsFunction_iff.mpr ⟨fs, hturns⟩
    have hchecked := (checkVariables_true_iff
      (checkVariables_isOk_iff.mpr (hreadsVars m hfinds))).mpr (hvars m hfinds)
    refine ⟨⟨libraryName, imports.libraryNid, fs⟩, m, ?_⟩
    rw [importLibrary_eq hsize himports hnid hentry, hname, ok_bind, hturns, ok_bind, if_pos rfl,
      hchecked]
    rfl

end Library

/-! ## The rounds of the walk -/

/-- A round of `add_module_imports`, at the offset of a descriptor from the base. -/
def importRound (baseAddress : Word) :
    CursorWalk.Round Trap (List FunctionImportLibrary × List MemoryMap) 32 :=
  fun importStart s =>
    match getPointerUnchecked s.2 (baseAddress + importStart) with
    | none => .ok (s, none)
    | some import_ => (importLibrary import_ s.2).map fun r =>
      match r.1 with
      | none => ((s.1, r.2), none)
      | some library => ((s.1 ++ [library], r.2), some 0x34#32)

/-- What a round at the address reads is mapped; at an address that is not, it reads nothing. -/
def ImportReads (maps : List MemoryMap) (address : Word) : Prop :=
  ∀ import_, getPointerUnchecked maps address = some import_ → LibraryReads maps import_

/-- The descriptor at the address is accepted. -/
def ImportAccepted (maps : List MemoryMap) (address : Word) : Prop :=
  ∃ import_, getPointerUnchecked maps address = some import_ ∧ LibraryAccepted maps import_

section Round

variable {baseAddress importEnd cursor : Word} {maps : List MemoryMap}
  {libraries : List FunctionImportLibrary}

theorem importLibraries_eq_walk {fuel : Nat} :
    importLibraries importEnd baseAddress fuel cursor libraries maps =
      (CursorWalk.walk (importRound baseAddress) .outOfFuel importEnd fuel cursor
        (libraries, maps)).map fun r => (if r.1 then some r.2.1 else none, r.2.2) := by
  induction fuel generalizing cursor libraries maps with
  | zero => rfl
  | succ fuel ih =>
    rw [importLibraries, CursorWalk.walk]
    by_cases hlt : cursor < importEnd
    · simp only [hlt, if_true, importRound]
      cases getPointerUnchecked maps (baseAddress + cursor) with
      | none => rfl
      | some import_ =>
        simp only
        cases importLibrary import_ maps with
        | error e => rfl
        | ok r =>
          obtain ⟨library, maps₁⟩ := r
          cases library with
          | none => rfl
          | some library => exact ih
    · simp only [hlt, if_false]
      rfl

theorem importRound_isOk_iff (libraries : List FunctionImportLibrary) :
    (∃ r, importRound baseAddress cursor (libraries, maps) = .ok r) ↔
      ImportReads maps (baseAddress + cursor) := by
  unfold importRound ImportReads
  cases getPointerUnchecked maps (baseAddress + cursor) with
  | none => simp
  | some import_ => simp [exists_map_ok, ← importLibrary_isOk_iff]

/-- A round that accepts its descriptor moves on by the size 0x34. -/
theorem importRound_size {s : List FunctionImportLibrary × List MemoryMap} {size : Word}
    (h : importRound baseAddress cursor (libraries, maps) = .ok (s, some size)) :
    size = 0x34#32 := by
  unfold importRound at h
  cases hp : getPointerUnchecked maps (baseAddress + cursor) with
  | none =>
    simp only [hp] at h
    cases h
  | some import_ =>
    simp only [hp] at h
    obtain ⟨⟨library, m⟩, _, h⟩ := map_ok.mp h
    cases library with
    | none => cases h
    | some library =>
      cases h
      rfl

theorem importRound_some_iff (libraries : List FunctionImportLibrary)
    (hreads : ImportReads maps (baseAddress + cursor)) :
    (∃ s, importRound baseAddress cursor (libraries, maps) = .ok (s, some 0x34#32)) ↔
      ImportAccepted maps (baseAddress + cursor) := by
  unfold importRound ImportAccepted
  cases hp : getPointerUnchecked maps (baseAddress + cursor) with
  | none => simp
  | some import_ =>
    have hsome := importLibrary_some_iff (importLibrary_isOk_iff.mpr (hreads import_ hp))
    constructor
    · intro h
      obtain ⟨s, h⟩ := h
      obtain ⟨⟨library, m⟩, hlibrary, h⟩ := map_ok.mp h
      cases library with
      | none => cases h
      | some library => exact ⟨import_, rfl, hsome.mp ⟨library, m, hlibrary⟩⟩
    · intro h
      obtain ⟨_, heq, haccepted⟩ := h
      cases heq
      obtain ⟨library, m, hlibrary⟩ := hsome.mpr haccepted
      exact ⟨_, map_ok.mpr ⟨_, hlibrary, rfl⟩⟩

/-- The other descriptors are refused. -/
theorem importRound_none_iff (libraries : List FunctionImportLibrary)
    (hreads : ImportReads maps (baseAddress + cursor)) :
    (∃ s, importRound baseAddress cursor (libraries, maps) = .ok (s, none)) ↔
      ¬ ImportAccepted maps (baseAddress + cursor) := by
  rw [← importRound_some_iff libraries hreads]
  obtain ⟨⟨s, size⟩, hround⟩ := (importRound_isOk_iff libraries).mpr hreads
  constructor
  · intro hnone hsome
    obtain ⟨_, hnone⟩ := hnone
    obtain ⟨_, hsome⟩ := hsome
    cases hnone.symm.trans hsome
  · intro hno
    cases size with
    | none => exact ⟨s, hround⟩
    | some size =>
      cases importRound_size hround
      exact absurd ⟨s, hround⟩ hno

end Round

end Betavita.Loader
