import Betavita.Hle.Runtime

/-!
# hle.cpp — what `resolve_runtime_modules` leaves

The three nested loops go over one list of imports. For every address the last import in that
list decides, whatever the record it fills was used for before.
-/

namespace Betavita.Hle

open Memory KeyedMap

/-- The imports of the registered modules in the order of the loops, each with its library. -/
def listedImports (modules : List RuntimeModule) : List (FunctionImportLibrary × FunctionImport) :=
  modules.flatMap fun i => i.functionImportLibraries.flatMap fun j => j.functionImports.map (j, ·)

/-- The last import in list order whose entry address is `address`. -/
def lastImport (modules : List RuntimeModule) (address : Word) :
    Option (FunctionImportLibrary × FunctionImport) :=
  ((listedImports modules).filter fun e => e.2.entryAddress = address).getLast?

/-- The functions of the emulator's own modules, module by module. -/
def listedFunctions (moduleList : List HLEModule) : List HLEFunction :=
  moduleList.flatMap (·.functions)

/-- `runtime_module_list.push_back` between two calls. -/
def Runtime.addRuntimeModule (rt : Runtime) (runtimeModule : RuntimeModule) : Runtime :=
  { rt with runtimeModuleList := Hle.addRuntimeModule rt.runtimeModuleList runtimeModule }

theorem getFunctionFromModuleList_eq (moduleList : List HLEModule) (nid : Word) :
    getFunctionFromModuleList moduleList nid =
      (listedFunctions moduleList).find? fun j => decide (j.nid = nid) := by
  rw [listedFunctions, List.find?_flatMap]
  rfl

theorem svcCalls_eq_map (moduleList : List HLEModule) (modules : List RuntimeModule) :
    svcCalls moduleList modules =
      (listedImports modules).map fun e => e.1.svcCall moduleList e.2 := by
  simp only [svcCalls, listedImports, List.map_flatMap, List.map_map]
  rfl

/-- The pair that decides about an address is that of the last import. -/
theorem find?_svcCalls (moduleList : List HLEModule) (modules : List RuntimeModule)
    (address : Word) :
    ((svcCalls moduleList modules).reverse.find? fun e => decide (e.1 = address)) =
      (lastImport modules address).map fun e => e.1.svcCall moduleList e.2 := by
  rw [svcCalls_eq_map, ← List.map_reverse, List.find?_map, lastImport, ← List.head?_reverse,
    ← List.filter_reverse, List.head?_filter]
  rfl

/-- One address after the call. -/
theorem Runtime.resolve_getFunctionFromAddress (rt : Runtime) (address : Word) :
    rt.resolveRuntimeModules.getFunctionFromAddress address =
      match lastImport rt.runtimeModuleList address with
      | some (j, k) => some ⟨j.libraryName, k.nid,
          (listedFunctions rt.moduleList).find? fun f => decide (f.nid = k.nid)⟩
      | none => rt.getFunctionFromAddress address := by
  have hmap : rt.resolveRuntimeModules.getFunctionFromAddress address =
      insertAll rt.nidToAddressMap (svcCalls rt.moduleList rt.runtimeModuleList) address :=
    congrFun (resolveModules_eq _ _ _) address
  rw [hmap, insertAll_eq_find?, find?_svcCalls]
  cases lastImport rt.runtimeModuleList address with
  | none => rfl
  | some e => simp only [Option.map_some, FunctionImportLibrary.svcCall,
      getFunctionFromModuleList_eq]

theorem Runtime.resolve_idem (rt : Runtime) :
    rt.resolveRuntimeModules.resolveRuntimeModules = rt.resolveRuntimeModules := by
  have hmap := insertAll_idem rt.nidToAddressMap (svcCalls rt.moduleList rt.runtimeModuleList)
  simp only [← resolveModules_eq] at hmap
  simp only [Runtime.resolveRuntimeModules, hmap]

/-- A module behind the others decides only about the addresses it imports at. -/
theorem lastImport_addRuntimeModule {modules : List RuntimeModule} {runtimeModule : RuntimeModule}
    {address : Word} (h : ∀ j ∈ runtimeModule.functionImportLibraries, ∀ k ∈ j.functionImports,
      k.entryAddress ≠ address) :
    lastImport (addRuntimeModule modules runtimeModule) address = lastImport modules address := by
  have hnone : (listedImports [runtimeModule]).filter
      (fun e => e.2.entryAddress = address) = [] := by
    refine List.filter_eq_nil_iff.mpr fun e he => ?_
    simp only [listedImports, List.flatMap_cons, List.flatMap_nil, List.append_nil,
      List.mem_flatMap, List.mem_map] at he
    obtain ⟨j, hj, k, hk, rfl⟩ := he
    simpa using h j hj k hk
  have hsplit : listedImports (addRuntimeModule modules runtimeModule) =
      listedImports modules ++ listedImports [runtimeModule] := by
    simp [listedImports, addRuntimeModule]
  rw [lastImport, hsplit, List.filter_append, hnone, List.append_nil, lastImport]

/-- A module added between two calls changes no record at an address it does not import. -/
theorem Runtime.resolve_addRuntimeModule (rt : Runtime) {runtimeModule : RuntimeModule}
    {address : Word} (h : ∀ j ∈ runtimeModule.functionImportLibraries, ∀ k ∈ j.functionImports,
      k.entryAddress ≠ address) :
    (rt.resolveRuntimeModules.addRuntimeModule
        runtimeModule).resolveRuntimeModules.getFunctionFromAddress address =
      rt.resolveRuntimeModules.getFunctionFromAddress address := by
  have hlast : lastImport (rt.resolveRuntimeModules.addRuntimeModule
      runtimeModule).runtimeModuleList address = lastImport rt.runtimeModuleList address :=
    lastImport_addRuntimeModule h
  rw [Runtime.resolve_getFunctionFromAddress, hlast]
  cases hfound : lastImport rt.runtimeModuleList address with
  | none => rfl
  | some e =>
    rw [Runtime.resolve_getFunctionFromAddress, hfound]
    rfl

/-- `resolve_runtime_modules`: at every address stands the record of the last import of that
address, with the first function of its NID, or what stood there before. Resolving twice is
resolving once, and a module added behind the others changes no record at an address it does
not import. -/
theorem resolveRuntimeModules_lastWriter (rt : Runtime) :
    (∀ address, rt.resolveRuntimeModules.getFunctionFromAddress address =
      match lastImport rt.runtimeModuleList address with
      | some (j, k) => some ⟨j.libraryName, k.nid,
          (listedFunctions rt.moduleList).find? fun f => decide (f.nid = k.nid)⟩
      | none => rt.getFunctionFromAddress address) ∧
    rt.resolveRuntimeModules.resolveRuntimeModules = rt.resolveRuntimeModules ∧
    ∀ runtimeModule : RuntimeModule, ∀ address : Word,
      (∀ j ∈ runtimeModule.functionImportLibraries, ∀ k ∈ j.functionImports,
        k.entryAddress ≠ address) →
      (rt.resolveRuntimeModules.addRuntimeModule
          runtimeModule).resolveRuntimeModules.getFunctionFromAddress address =
        rt.resolveRuntimeModules.getFunctionFromAddress address :=
  ⟨rt.resolve_getFunctionFromAddress, rt.resolve_idem, fun _ _ h => rt.resolve_addRuntimeModule h⟩

/-- Two libraries that import at one address, the second a function nobody has. -/
def twoImports : RuntimeModule :=
  ⟨[], 0, [⟨[0x41#8], 0, [⟨0x632980D7#32, 0x1000#32⟩]⟩, ⟨[0x42#8], 0, [⟨1#32, 0x1000#32⟩]⟩]⟩

/-- The second one stands at the address, also after a module that imports elsewhere. -/
theorem resolveRuntimeModules_lastWriter_two :
    let rt : Runtime := ⟨[twoImports], fun _ => none, [moduleSceLibKernel]⟩
    rt.resolveRuntimeModules.getFunctionFromAddress 0x1000#32 = some ⟨[0x42#8], 1#32, none⟩ ∧
    (rt.resolveRuntimeModules.addRuntimeModule
        ⟨[], 1, [⟨[], 0, [⟨1#32, 0x2000#32⟩]⟩]⟩).resolveRuntimeModules.getFunctionFromAddress
        0x1000#32 =
      rt.resolveRuntimeModules.getFunctionFromAddress 0x1000#32 := by
  intro rt
  obtain ⟨hlast, _, hadded⟩ := resolveRuntimeModules_lastWriter rt
  exact ⟨(hlast 0x1000#32).trans rfl, hadded _ _ (by decide)⟩

end Betavita.Hle
