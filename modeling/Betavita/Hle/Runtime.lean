import Betavita.Hle.Kernel
import Betavita.Lib.KeyedMap

/-!
# hle.cpp, main.cpp — imported functions and supervisor calls

The loader registers what a module imports; `resolve_runtime_modules` looks each of the
functions up in the emulator's own modules and files it under the address of its stub,
where the handler of supervisor calls finds it.
-/

namespace Betavita.Hle

open Memory KeyedMap

/-- A `std::string` of guest memory, as its characters. -/
abbrev GuestString := List Byte

structure FunctionImport where
  nid : Word
  entryAddress : Word
deriving DecidableEq

structure FunctionImportLibrary where
  libraryName : GuestString
  libraryNid : Word
  functionImports : List FunctionImport
deriving DecidableEq

structure RuntimeModule where
  libraryName : GuestString
  moduleNid : Word
  functionImportLibraries : List FunctionImportLibrary
deriving DecidableEq

/-- The host functions the modules wrap. -/
inductive FuncWrapper
  | sceKernelAllocMemBlock
  | sceKernelGetMemBlockBase
  | sceKernelGetThreadId
  | sceKernelCreateMutex
  | sceKernelLockMutex
  | sceKernelUnlockMutex
  | sceKernelGetTLSAddr
  | sceClibMemset
  | sceClibMemmove
  | sceDisplaySetFramebuf
deriving DecidableEq, Repr

structure HLEFunction where
  name : String
  nid : Word
  supervisorCallNumber : Int
  funcWrapper : FuncWrapper
deriving DecidableEq, Repr

structure HLEModule where
  name : String
  nid : Word
  functions : List HLEFunction
deriving DecidableEq, Repr

structure SvcCall where
  libraryName : GuestString
  nid : Word
  function : Option HLEFunction
deriving DecidableEq

def moduleSceSysmem : HLEModule where
  name := "SceSysmem"
  nid := 0x37FE725A#32
  functions :=
    [⟨"sceKernelAllocMemBlock", 0xB9D5EBDE#32, 0x0000, .sceKernelAllocMemBlock⟩,
      ⟨"sceKernelGetMemBlockBase", 0xB8EF5818#32, 0x0000, .sceKernelGetMemBlockBase⟩]

def moduleSceLibKernel : HLEModule where
  name := "SceLibKernel"
  nid := 0xCAE9ACE6#32
  functions :=
    [⟨"sceKernelGetThreadId", 0x0FB972F9#32, 0x0000, .sceKernelGetThreadId⟩,
      ⟨"sceKernelCreateMutex", 0xED53334A#32, 0x0000, .sceKernelCreateMutex⟩,
      ⟨"sceKernelLockMutex", 0x1D8D7945#32, 0x0000, .sceKernelLockMutex⟩,
      ⟨"sceKernelUnlockMutex", 0x1A372EC8#32, 0x0000, .sceKernelUnlockMutex⟩,
      ⟨"sceKernelGetTLSAddr", 0xB295EB61#32, 0x0000, .sceKernelGetTLSAddr⟩,
      ⟨"sceClibMemset", 0x632980D7#32, 0x0000, .sceClibMemset⟩,
      ⟨"sceClibMemmove", 0x736753C8#32, 0x0000, .sceClibMemmove⟩]

def moduleSceDisplayUser : HLEModule where
  name := "SceDisplayUser"
  nid := 0x4FAACD11#32
  functions := [⟨"sceDisplaySetFramebuf", 0x7A410B64#32, 0x0000, .sceDisplaySetFramebuf⟩]

/-- The lists and the map of `hle.cpp`. -/
structure Runtime where
  runtimeModuleList : List RuntimeModule
  nidToAddressMap : Word → Option SvcCall
  moduleList : List HLEModule

/-- The statics before the program starts. -/
def Runtime.new : Runtime := ⟨[], fun _ => none, []⟩

/-- `add_runtime_module`. -/
def addRuntimeModule (runtimeModuleList : List RuntimeModule) (runtimeModule : RuntimeModule) :
    List RuntimeModule :=
  runtimeModuleList ++ [runtimeModule]

/-- `init_modules`. -/
def Runtime.initModules (rt : Runtime) : Runtime :=
  { rt with
    moduleList := rt.moduleList ++ [moduleSceSysmem, moduleSceLibKernel, moduleSceDisplayUser] }

/-- `get_function_from_module_list`: the first function of that NID, module by module. -/
def getFunctionFromModuleList (moduleList : List HLEModule) (nid : Word) : Option HLEFunction :=
  moduleList.findSome? fun i => i.functions.find? fun j => decide (j.nid = nid)

/-- The innermost loop of `resolve_runtime_modules`. The one `svc` is filled in anew
for every function; its library name stays. -/
def resolveFunctions (moduleList : List HLEModule) (svc : SvcCall) :
    List FunctionImport → (Word → Option SvcCall) → Word → Option SvcCall
  | [], nidToAddressMap => nidToAddressMap
  | k :: rest, nidToAddressMap =>
    let svc := { svc with nid := k.nid }
    let svc := { svc with function := getFunctionFromModuleList moduleList k.nid }
    resolveFunctions moduleList svc rest
      (Function.update nidToAddressMap k.entryAddress (some svc))

def resolveLibraries (moduleList : List HLEModule) :
    List FunctionImportLibrary → (Word → Option SvcCall) → Word → Option SvcCall
  | [], nidToAddressMap => nidToAddressMap
  | j :: rest, nidToAddressMap =>
    -- `nid` and `function` have no value yet: the inner loop sets both before it stores
    let svc : SvcCall := ⟨j.libraryName, 0, none⟩
    resolveLibraries moduleList rest
      (resolveFunctions moduleList svc j.functionImports nidToAddressMap)

def resolveModules (moduleList : List HLEModule) :
    List RuntimeModule → (Word → Option SvcCall) → Word → Option SvcCall
  | [], nidToAddressMap => nidToAddressMap
  | i :: rest, nidToAddressMap =>
    resolveModules moduleList rest
      (resolveLibraries moduleList i.functionImportLibraries nidToAddressMap)

/-- `resolve_runtime_modules`. -/
def Runtime.resolveRuntimeModules (rt : Runtime) : Runtime :=
  { rt with
    nidToAddressMap := resolveModules rt.moduleList rt.runtimeModuleList rt.nidToAddressMap }

/-- `get_function_from_address`. -/
def Runtime.getFunctionFromAddress (rt : Runtime) (address : Word) : Option SvcCall :=
  rt.nidToAddressMap address

/-- `Kernel::set_core`. -/
def Kernel.setCore (k : Kernel) (coreNum : Int) : Kernel := { k with currentCore := coreNum }

/-- What the handler ends in: `uc_emu_stop`, or a call of the wrapper. -/
inductive SvcOutcome
  | stopped
  | called (funcWrapper : FuncWrapper)
deriving DecidableEq, Repr

/-- `handle_svc`, with the program counter that the engine reports. -/
def handleSvc (rt : Runtime) (kernel : Kernel) (pc : Word) : Kernel × SvcOutcome :=
  let svcAddress := pc - 4#32
  match rt.getFunctionFromAddress svcAddress with
  | none => (kernel, .stopped)
  | some svc =>
    match svc.function with
    | none => (kernel, .stopped)
    | some function => (kernel.setCore 0, .called function.funcWrapper)

/-! ## The resolved map -/

/-- What is filed for an import of a library. -/
def FunctionImportLibrary.svcCall (moduleList : List HLEModule) (j : FunctionImportLibrary)
    (k : FunctionImport) : Word × SvcCall :=
  (k.entryAddress, ⟨j.libraryName, k.nid, getFunctionFromModuleList moduleList k.nid⟩)

/-- What is filed for all imports of a library, in order. -/
def FunctionImportLibrary.svcCalls (moduleList : List HLEModule) (j : FunctionImportLibrary) :
    List (Word × SvcCall) :=
  j.functionImports.map (j.svcCall moduleList)

/-- What is filed for all imports of the registered modules. -/
def svcCalls (moduleList : List HLEModule) (modules : List RuntimeModule) :
    List (Word × SvcCall) :=
  modules.flatMap fun i => i.functionImportLibraries.flatMap (·.svcCalls moduleList)

theorem mem_svcCalls {moduleList : List HLEModule} {modules : List RuntimeModule}
    {e : Word × SvcCall} :
    e ∈ svcCalls moduleList modules ↔ ∃ i ∈ modules, ∃ j ∈ i.functionImportLibraries,
      ∃ k ∈ j.functionImports, e = j.svcCall moduleList k := by
  simp [svcCalls, FunctionImportLibrary.svcCalls, eq_comm]

section Resolve

variable (moduleList : List HLEModule)

/-- The record that is used again carries nothing over but the library name. -/
theorem resolveFunctions_eq (j : FunctionImportLibrary) (nid : Word)
    (function : Option HLEFunction) (imports : List FunctionImport)
    (m : Word → Option SvcCall) :
    resolveFunctions moduleList ⟨j.libraryName, nid, function⟩ imports m =
      insertAll m (imports.map (j.svcCall moduleList)) := by
  induction imports generalizing nid function m with
  | nil => rfl
  | cons k rest ih => exact ih _ _ _

theorem resolveLibraries_eq (libraries : List FunctionImportLibrary) (m : Word → Option SvcCall) :
    resolveLibraries moduleList libraries m =
      insertAll m (libraries.flatMap (·.svcCalls moduleList)) := by
  induction libraries generalizing m with
  | nil => rfl
  | cons j rest ih =>
    rw [resolveLibraries, resolveFunctions_eq, ih, List.flatMap_cons, insertAll_append]
    rfl

theorem resolveModules_eq (modules : List RuntimeModule) (m : Word → Option SvcCall) :
    resolveModules moduleList modules m = insertAll m (svcCalls moduleList modules) := by
  induction modules generalizing m with
  | nil => rfl
  | cons i rest ih =>
    rw [resolveModules, resolveLibraries_eq, ih, svcCalls, svcCalls, List.flatMap_cons,
      insertAll_append]

end Resolve

/-- The handler looks up the address of the trapping instruction. -/
theorem handleSvc_of_found {rt : Runtime} {svc : SvcCall} {address : Word}
    (h : rt.getFunctionFromAddress address = some svc) (kernel : Kernel) :
    handleSvc rt kernel (address + 4#32) =
      match svc.function with
      | none => (kernel, .stopped)
      | some function => (kernel.setCore 0, .called function.funcWrapper) := by
  have hpc : address + 4#32 - 4#32 = address := by bv_omega
  simp only [handleSvc, hpc, h]

end Betavita.Hle
