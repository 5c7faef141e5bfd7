import Betavita.Hle.Runtime
import Betavita.Memory.Guest

/-!
# self_loader.cpp — module imports and exports

`add_module_imports` walks the import descriptors of the module info, writes a stub at
the entry address of every imported function and registers what it found;
`add_module_exports` only checks the export tables. Both `while` loops are followed for
`fuel` rounds: the bounds are 32-bit numbers of the image, and neither loop has to end.
-/

namespace Betavita.Loader

open Memory Hle ByteBuffer

/-- The members of `sce_module_imports_raw` the loader reads, besides its size. -/
structure ModuleImports where
  numSymsFuncs : Half
  numSymsVars : Half
  libraryNid : Word
  libraryName : Word
  funcNidTable : Word
  funcEntryTable : Word
  varNidTable : Word
  varEntryTable : Word
deriving DecidableEq

def readModuleImports (maps : List MemoryMap) (import_ : HostPtr) : Except Trap ModuleImports := do
  let numSymsFuncs ← readHalf maps (import_.add 0x06)
  let numSymsVars ← readHalf maps (import_.add 0x08)
  let libraryNid ← readWord maps (import_.add 0x10)
  let libraryName ← readWord maps (import_.add 0x14)
  let funcNidTable ← readWord maps (import_.add 0x1C)
  let funcEntryTable ← readWord maps (import_.add 0x20)
  let varNidTable ← readWord maps (import_.add 0x24)
  let varEntryTable ← readWord maps (import_.add 0x28)
  return ⟨numSymsFuncs, numSymsVars, libraryNid, libraryName, funcNidTable, funcEntryTable,
    varNidTable, varEntryTable⟩

/-- `patch_function_import_data`. -/
def patchFunctionImportData (maps : List MemoryMap) (data : HostPtr) (nid : Word) :
    Except Trap (List MemoryMap) := do
  let maps ← writeWord maps data 0xEF000000#32
  let maps ← writeWord maps (data.add 4) 0xE1A0F00E#32
  writeWord maps (data.add 8) nid

/-- The loop over the functions of a library, for `n` more of them; `none` is `return false`. -/
def importFunctions : Nat → HostPtr → HostPtr → List FunctionImport → List MemoryMap →
    Except Trap (Option (List FunctionImport) × List MemoryMap)
  | 0, _, _, functionImports, maps => .ok (some functionImports, maps)
  | n + 1, nid, entryAddr, functionImports, maps => do
    let entry ← readWord maps entryAddr
    match getPointerUnchecked maps entry with
    | none => return (none, maps)
    | some entryData =>
      let patchNid ← readWord maps nid
      let maps ← patchFunctionImportData maps entryData patchNid
      -- the tables are read again, from the patched memory
      let importNid ← readWord maps nid
      let importEntry ← readWord maps entryAddr
      importFunctions n (nid.add 4) (entryAddr.add 4)
        (functionImports ++ [⟨importNid, importEntry⟩]) maps

/-- The loop over the variables of a library: it only looks for relocation data. -/
def importVariables (maps : List MemoryMap) : Nat → HostPtr → Except Trap Bool
  | 0, _ => .ok true
  | n + 1, entryAddr => do
    let entry ← readWord maps entryAddr
    match getPointerUnchecked maps entry with
    | none => return false
    | some data =>
      let relocationDataSize ← readWord maps data
      if (relocationDataSize >>> 4) &&& 0xFFFFFF#32 ≠ 0 then return false
      else importVariables maps n (entryAddr.add 4)

/-- The two variable tables, if the descriptor has both. -/
def checkVariables (maps : List MemoryMap) (imports : ModuleImports) : Except Trap Bool :=
  if imports.varNidTable ≠ 0 ∧ imports.varEntryTable ≠ 0 then
    match getPointerUnchecked maps imports.varNidTable with
    | none => .ok false
    | some _ =>
      match getPointerUnchecked maps imports.varEntryTable with
      | none => .ok false
      | some entryAddr => importVariables maps imports.numSymsVars.toNat entryAddr
  else .ok true

/-- One round of the loop over the descriptors; `none` is `return false`. -/
def importLibrary (import_ : HostPtr) (maps : List MemoryMap) :
    Except Trap (Option FunctionImportLibrary × List MemoryMap) := do
  let importStructSize ← readHalf maps import_
  if importStructSize = 0x24#16 then return (none, maps)
  else if importStructSize = 0x34#16 then
    let imports ← readModuleImports maps import_
    match getPointerUnchecked maps imports.funcNidTable with
    | none => return (none, maps)
    | some nid =>
      match getPointerUnchecked maps imports.funcEntryTable with
      | none => return (none, maps)
      | some entryAddr =>
        let libraryName ← readCString maps (getPointerUnchecked maps imports.libraryName)
        let (functionImports, maps) ←
          importFunctions imports.numSymsFuncs.toNat nid entryAddr [] maps
        match functionImports with
        | none => return (none, maps)
        | some functionImports =>
          let checked ← checkVariables maps imports
          if !checked then return (none, maps)
          else return (some ⟨libraryName, imports.libraryNid, functionImports⟩, maps)
  else return (none, maps)

/-- The loop over the descriptors. -/
def importLibraries (importEnd baseAddress : Word) : Nat → Word → List FunctionImportLibrary →
    List MemoryMap → Except Trap (Option (List FunctionImportLibrary) × List MemoryMap)
  | 0, _, _, _ => .error .outOfFuel
  | fuel + 1, importStart, libraries, maps =>
    if importStart < importEnd then
      match getPointerUnchecked maps (baseAddress + importStart) with
      | none => .ok (none, maps)
      | some import_ => do
        let (library, maps) ← importLibrary import_ maps
        match library with
        | none => return (none, maps)
        | some library =>
          importLibraries importEnd baseAddress fuel (importStart + 0x34#32)
            (libraries ++ [library]) maps
    else .ok (some libraries, maps)

/-- `add_module_imports`: the flag it returns, the memory and the registered modules. -/
def addModuleImports (fuel : Nat) (modinfo : HostPtr) (baseAddress : Word)
    (maps : List MemoryMap) (runtimeModuleList : List RuntimeModule) :
    Except Trap (Bool × List MemoryMap × List RuntimeModule) := do
  let importTop ← readWord maps (modinfo.add 0x2C)
  let importEnd ← readWord maps (modinfo.add 0x30)
  let (libraries, maps) ← importLibraries importEnd baseAddress fuel importTop [] maps
  match libraries with
  | none => return (false, maps, runtimeModuleList)
  | some libraries =>
    let libraryName ← readCString maps (some (modinfo.add 0x04))
    let moduleNid ← readWord maps (modinfo.add 0x34)
    return (true, maps, addRuntimeModule runtimeModuleList ⟨libraryName, moduleNid, libraries⟩)

/-! ## What the import pass does to memory -/

/-- The three words of a stub. -/
def stubBytes (nid : Word) : List Byte :=
  encode 4 0xEF000000 ++ (encode 4 0xE1A0F00E ++ encode 4 nid.toNat)

@[simp] theorem stubBytes_length (nid : Word) : (stubBytes nid).length = 12 := by
  simp [stubBytes]

theorem stubBytes_words (nid : Word) :
    slice (stubBytes nid) 0 4 = encode 4 0xEF000000 ∧
      slice (stubBytes nid) 4 4 = encode 4 0xE1A0F00E ∧
      slice (stubBytes nid) 8 4 = encode 4 nid.toNat := by
  have hlen : ∀ x, (encode 4 x).length = 4 := encode_length 4
  have hself : ∀ x, slice (encode 4 x) 0 4 = encode 4 x := by
    intro x
    have h := slice_self (encode 4 x)
    rwa [hlen] at h
  unfold stubBytes
  refine ⟨?_, ?_, ?_⟩
  · rw [slice_append_left (by simp), hself]
  · rw [slice_append_right (by simp), hlen, slice_append_left (by simp), hself]
  · rw [slice_append_right (by simp), hlen, slice_append_right (by simp), hlen, hself]

/-- The three stores are one. -/
theorem patchFunctionImportData_eq (maps : List MemoryMap) (data : HostPtr) (nid : Word) :
    patchFunctionImportData maps data nid = writeBytes maps data (stubBytes nid) := by
  have hlast : ∀ maps, (writeWord maps (data.add 4) 0xE1A0F00E#32 >>= fun maps =>
      writeWord maps (data.add 8) nid) =
        writeBytes maps (data.add 4) (encode 4 0xE1A0F00E ++ encode 4 nid.toNat) :=
    fun maps => writeBytes_append (p := data.add 4) (by simp) (by simp)
  unfold patchFunctionImportData
  simp only [hlast]
  exact writeBytes_append (by simp) (by simp)

section Same

variable {maps maps' : List MemoryMap}

theorem importFunctions_sameMaps {n : Nat} {nid entryAddr : HostPtr}
    {functionImports : List FunctionImport} {r : Option (List FunctionImport)}
    (h : importFunctions n nid entryAddr functionImports maps = .ok (r, maps')) :
    SameMaps maps maps' := by
  induction n generalizing nid entryAddr functionImports maps with
  | zero =>
    cases h
    exact .refl _
  | succ n ih =>
    obtain ⟨entry, _, h⟩ := bind_ok.mp h
    cases hdata : getPointerUnchecked maps entry with
    | none =>
      rw [hdata] at h
      cases h
      exact .refl _
    | some entryData =>
      rw [hdata] at h
      obtain ⟨_, _, h⟩ := bind_ok.mp h
      obtain ⟨maps₁, hpatch, h⟩ := bind_ok.mp h
      obtain ⟨_, _, h⟩ := bind_ok.mp h
      obtain ⟨_, _, h⟩ := bind_ok.mp h
      rw [patchFunctionImportData_eq] at hpatch
      exact (writeBytes_sameMaps hpatch).trans (ih h)

/-- What one round can do: refuse the descriptor as it stands, or go over its functions
and then accept it or not. -/
theorem importLibrary_cases {import_ : HostPtr} {r : Option FunctionImportLibrary}
    (h : importLibrary import_ maps = .ok (r, maps')) :
    (r = none ∧ maps' = maps) ∨
    ∃ imports nid entryAddr libraryName functionImports,
      readModuleImports maps import_ = .ok imports ∧
      getPointerUnchecked maps imports.funcNidTable = some nid ∧
      getPointerUnchecked maps imports.funcEntryTable = some entryAddr ∧
      readCString maps (getPointerUnchecked maps imports.libraryName) = .ok libraryName ∧
      importFunctions imports.numSymsFuncs.toNat nid entryAddr [] maps =
        .ok (functionImports, maps') ∧
      ∀ library, r = some library → ∃ fs, functionImports = some fs ∧
        library = ⟨libraryName, imports.libraryNid, fs⟩ := by
  unfold importLibrary at h
  obtain ⟨size, _, h⟩ := bind_ok.mp h
  split at h
  · cases h
    exact .inl ⟨rfl, rfl⟩
  split at h
  · obtain ⟨imports, himports, h⟩ := bind_ok.mp h
    cases hnid : getPointerUnchecked maps imports.funcNidTable with
    | none =>
      simp only [hnid] at h
      cases h
      exact .inl ⟨rfl, rfl⟩
    | some nid =>
      cases hentry : getPointerUnchecked maps imports.funcEntryTable with
      | none =>
        simp only [hnid, hentry] at h
        cases h
        exact .inl ⟨rfl, rfl⟩
      | some entryAddr =>
        simp only [hnid, hentry] at h
        obtain ⟨libraryName, hname, h⟩ := bind_ok.mp h
        obtain ⟨⟨functionImports, maps₁⟩, hfunctions, h⟩ := bind_ok.mp h
        cases functionImports with
        | none =>
          cases h
          exact .inr ⟨imports, nid, entryAddr, libraryName, none, himports, hnid, hentry, hname,
            hfunctions, fun _ hlibrary => nomatch hlibrary⟩
        | some fs =>
          obtain ⟨checked, _, h⟩ := bind_ok.mp h
          cases checked with
          | false =>
            cases h
            exact .inr ⟨imports, nid, entryAddr, libraryName, some fs, himports, hnid, hentry,
              hname, hfunctions, fun _ hlibrary => nomatch hlibrary⟩
          | true =>
            cases h
            exact .inr ⟨imports, nid, entryAddr, libraryName, some fs, himports, hnid, hentry,
              hname, hfunctions, fun _ hlibrary => ⟨fs, rfl, (Option.some.inj hlibrary).symm⟩⟩
  · cases h
    exact .inl ⟨rfl, rfl⟩

theorem importLibrary_sameMaps {import_ : HostPtr} {r : Option FunctionImportLibrary}
    (h : importLibrary import_ maps = .ok (r, maps')) : SameMaps maps maps' := by
  rcases importLibrary_cases h with ⟨_, rfl⟩ | ⟨_, _, _, _, _, _, _, _, _, hfunctions, _⟩
  · exact .refl _
  · exact importFunctions_sameMaps hfunctions

theorem importLibraries_sameMaps {importEnd baseAddress importStart : Word} {fuel : Nat}
    {libraries : List FunctionImportLibrary} {r : Option (List FunctionImportLibrary)}
    (h : importLibraries importEnd baseAddress fuel importStart libraries maps = .ok (r, maps')) :
    SameMaps maps maps' := by
  induction fuel generalizing importStart libraries maps with
  | zero => cases h
  | succ fuel ih =>
    rw [importLibraries] at h
    split at h
    · cases himport : getPointerUnchecked maps (baseAddress + importStart) with
      | none =>
        rw [himport] at h
        cases h
        exact .refl _
      | some import_ =>
        rw [himport] at h
        obtain ⟨⟨library, maps₁⟩, hlibrary, h⟩ := bind_ok.mp h
        have hsame := importLibrary_sameMaps hlibrary
        cases library with
        | none =>
          cases h
          exact hsame
        | some library => exact hsame.trans (ih h)
    · cases h
      exact .refl _

/-- What the pass does: without success nothing is registered, with it one module is. -/
theorem addModuleImports_cases {fuel : Nat} {modinfo : HostPtr} {baseAddress : Word}
    {modules modules' : List RuntimeModule} {b : Bool}
    (h : addModuleImports fuel modinfo baseAddress maps modules = .ok (b, maps', modules')) :
    ∃ importTop importEnd libraries,
      readWord maps (modinfo.add 0x2C) = .ok importTop ∧
      readWord maps (modinfo.add 0x30) = .ok importEnd ∧
      importLibraries importEnd baseAddress fuel importTop [] maps = .ok (libraries, maps') ∧
      ((b = false ∧ libraries = none ∧ modules' = modules) ∨
        ∃ libs name nid, b = true ∧ libraries = some libs ∧
          modules' = addRuntimeModule modules ⟨name, nid, libs⟩) := by
  unfold addModuleImports at h
  obtain ⟨importTop, htop, h⟩ := bind_ok.mp h
  obtain ⟨importEnd, hend, h⟩ := bind_ok.mp h
  obtain ⟨⟨libraries, maps₁⟩, hlibraries, h⟩ := bind_ok.mp h
  cases libraries with
  | none =>
    cases h
    exact ⟨importTop, importEnd, none, htop, hend, hlibraries, .inl ⟨rfl, rfl, rfl⟩⟩
  | some libs =>
    obtain ⟨name, _, h⟩ := bind_ok.mp h
    obtain ⟨nid, _, h⟩ := bind_ok.mp h
    cases h
    exact ⟨importTop, importEnd, some libs, htop, hend, hlibraries,
      .inr ⟨libs, name, nid, rfl, rfl, rfl⟩⟩

theorem addModuleImports_sameMaps {fuel : Nat} {modinfo : HostPtr} {baseAddress : Word}
    {modules modules' : List RuntimeModule} {b : Bool}
    (h : addModuleImports fuel modinfo baseAddress maps modules = .ok (b, maps', modules')) :
    SameMaps maps maps' := by
  obtain ⟨_, _, _, _, _, hlibraries, _⟩ := addModuleImports_cases h
  exact importLibraries_sameMaps hlibraries

end Same

/-! ## Exports -/

def NID_MODULE_STOP : Word := 0x79F8E492#32
def NID_MODULE_EXIT : Word := 0x913482A9#32
def NID_MODULE_START : Word := 0x935CD196#32
def NID_MODULE_INFO : Word := 0x6C2224BA#32
def NID_PROCESS_PARAM : Word := 0x70FBA1E7#32

/-- The members of `sce_module_exports_raw` the loader reads. -/
structure ModuleExports where
  size : Half
  numSymsFuncs : Half
  numSymsVars : Word
  numSymsTlsVars : Word
  nidTable : Word
  entryTable : Word
deriving DecidableEq

def readModuleExports (maps : List MemoryMap) (exportLib : HostPtr) :
    Except Trap ModuleExports := do
  let size ← readHalf maps exportLib
  let numSymsFuncs ← readHalf maps (exportLib.add 0x06)
  let numSymsVars ← readWord maps (exportLib.add 0x08)
  let numSymsTlsVars ← readWord maps (exportLib.add 0x0C)
  let nidTable ← readWord maps (exportLib.add 0x18)
  let entryTable ← readWord maps (exportLib.add 0x1C)
  return ⟨size, numSymsFuncs, numSymsVars, numSymsTlsVars, nidTable, entryTable⟩

/-- `table[offset]`, through a pointer that may be null. -/
def readTable (maps : List MemoryMap) (table : Option HostPtr) (offset : Nat) :
    Except Trap Word :=
  match table with
  | none => .error .nullAccess
  | some p => readWord maps (p.add (4 * offset))

/-- The loop over `n` symbols from `offset` on, all of which have to be known. -/
def exportSymbols (maps : List MemoryMap) (known : List Word)
    (nidTable entryTable : Option HostPtr) : Nat → Nat → Except Trap Bool
  | 0, _ => .ok true
  | n + 1, offset => do
    let nid ← readTable maps nidTable offset
    let _entry ← readTable maps entryTable offset
    if nid ∈ known then exportSymbols maps known nidTable entryTable n (offset + 1)
    else return false

/-- One round of the loop over the export libraries: the flag and the size of the record. -/
def exportLibrary (maps : List MemoryMap) (exportLib : Option HostPtr) :
    Except Trap (Bool × Half) :=
  match exportLib with
  | none => .error .nullAccess
  | some exportLib => do
    let exports ← readModuleExports maps exportLib
    let nidTable := getPointerUnchecked maps exports.nidTable
    let entryTable := getPointerUnchecked maps exports.entryTable
    let numFuncs := exports.numSymsFuncs.toNat
    let numVars := exports.numSymsVars.toNat
    let funcs ← exportSymbols maps [NID_MODULE_START, NID_MODULE_STOP, NID_MODULE_EXIT]
      nidTable entryTable numFuncs 0
    if !funcs then return (false, exports.size)
    else
      let vars ← exportSymbols maps [NID_PROCESS_PARAM, NID_MODULE_INFO]
        nidTable entryTable numVars numFuncs
      if !vars then return (false, exports.size)
      else
        let tlsVars ← exportSymbols maps []
          nidTable entryTable exports.numSymsTlsVars.toNat (numFuncs + numVars)
        return (tlsVars, exports.size)

def exportLibraries (maps : List MemoryMap) (exportEnd baseAddress : Word) :
    Nat → Word → Except Trap Bool
  | 0, _ => .error .outOfFuel
  | fuel + 1, exportStart =>
    if exportStart < exportEnd then do
      let (exported, size) ←
        exportLibrary maps (getPointerUnchecked maps (baseAddress + exportStart))
      if !exported then return false
      else exportLibraries maps exportEnd baseAddress fuel (exportStart + size.setWidth 32)
    else .ok true

/-- `add_module_exports`. -/
def addModuleExports (fuel : Nat) (modinfo : HostPtr) (baseAddress : Word)
    (maps : List MemoryMap) : Except Trap Bool := do
  let exportTop ← readWord maps (modinfo.add 0x24)
  let exportEnd ← readWord maps (modinfo.add 0x28)
  let _tlsStart ← readWord maps (modinfo.add 0x38)
  let _tlsFilesz ← readWord maps (modinfo.add 0x3C)
  let _tlsMemsz ← readWord maps (modinfo.add 0x40)
  exportLibraries maps exportEnd baseAddress fuel exportTop

end Betavita.Loader
