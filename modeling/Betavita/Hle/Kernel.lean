import Betavita.Hle.MemoryManager
import Betavita.Memory.Access

/-!
# kernel.cpp — kernel objects and threads

The kernel owns a map from uids to objects and, for the objects that are threads,
the list of their uids in creation order. A `Thread *` is the uid of the thread:
the map is the only owner, and no uid is issued twice.
-/

namespace Betavita.Hle

open Memory

/-- `SceUID` is an `int`. -/
abbrev SceUID := Int

def SCE_THREAD_RUNNING : Word := 1#32
def SCE_THREAD_READY : Word := 2#32
def SCE_THREAD_STAGNANT : Word := 128#32

def SCE_WAIT_TYPE_NONE : Word := 0#32

/-- `SceObjectType`. -/
inductive SceObjectType
  | none
  | thread
deriving DecidableEq, Repr

/-- `processor::RegisterContext`. -/
structure RegisterContext where
  reg : Fin 16 → Word
  cpsr : Word

/-- `Thread`. The `int` stack size is kept as its 32 bits: it comes from a
`uint32_t` and is only handed on as one. -/
structure Thread where
  uid : SceUID
  processId : SceUID
  name : String
  attr : Word
  status : Word
  entryPoint : Word
  stackAddress : Word
  stackSize : Word
  initPriority : Int
  currentPriority : Int
  waitType : Word
  waitID : SceUID
  tlsLowAddress : Word
  context : RegisterContext

/-- `KernelObject` and its one subclass. -/
inductive KernelObject
  | object (uid : SceUID)
  | thread (t : Thread)

def KernelObject.uid : KernelObject → SceUID
  | .object uid => uid
  | .thread t => t.uid

def KernelObject.objectType : KernelObject → SceObjectType
  | .object _ => .none
  | .thread _ => .thread

structure Kernel where
  uidValue : Int
  kernelObjectMap : SceUID → Option KernelObject
  threadList : List SceUID
  readyThreadsQueue : List SceUID
  currentCore : Int
  currentThread : Fin 4 → Option SceUID

/-- `Kernel::Kernel`. -/
def Kernel.new : Kernel where
  uidValue := 0x100
  kernelObjectMap := fun _ => none
  threadList := []
  readyThreadsQueue := []
  currentCore := -1
  currentThread := fun _ => none

/-- `get_kernel_object<Thread>`: the object of that uid if its type is that of a thread. -/
def Kernel.getThread (k : Kernel) (uid : SceUID) : Option Thread :=
  match k.kernelObjectMap uid with
  | some (.thread t) => some t
  | _ => none

/-- `generate_uid`: `uid_value` is an `int`, so the increment of the last one has no
defined result. -/
def Kernel.generateUid (k : Kernel) : Except Trap (Kernel × SceUID) :=
  if k.uidValue = 2 ^ 31 - 1 then .error .signedOverflow
  else .ok ({ k with uidValue := k.uidValue + 1 }, k.uidValue)

/-- `add_uid_to_list(uid, type)`: only threads have a list. -/
def Kernel.addUidToList (k : Kernel) (uid : SceUID) : Kernel :=
  match k.kernelObjectMap uid with
  | some (.thread t) => { k with threadList := k.threadList ++ [t.uid] }
  | _ => k

/-- `create_kernel_object<T>`: `new` is the object of the given uid. -/
def Kernel.createKernelObject (k : Kernel) (new : SceUID → KernelObject) :
    Except Trap (Kernel × SceUID) := do
  let (k, uid) ← k.generateUid
  let k := { k with kernelObjectMap := Function.update k.kernelObjectMap uid (some (new uid)) }
  return (k.addUidToList uid, uid)

/-- The thread `create_thread` fills in. -/
def Thread.created (name : String) (entry : Word) (initPriority : Int) (stackSize attr : Word)
    (uid : SceUID) : Thread where
  uid := uid
  processId := 0
  name := name
  attr := attr
  status := SCE_THREAD_STAGNANT
  entryPoint := entry
  stackAddress := 0
  stackSize := stackSize
  initPriority := initPriority
  currentPriority := initPriority
  waitType := SCE_WAIT_TYPE_NONE
  waitID := 0
  tlsLowAddress := 0
  context := ⟨fun _ => 0, 0⟩

/-- `create_thread`; it returns the uid. -/
def Kernel.createThread (k : Kernel) (name : String) (entry : Word) (initPriority : Int)
    (stackSize attr _option : Word) : Except Trap (Kernel × SceUID) :=
  k.createKernelObject fun uid => .thread (.created name entry initPriority stackSize attr uid)

/-- `remove_uid_from_list(uid)`: only threads have a list, where the first entry goes. -/
def Kernel.removeUidFromList (k : Kernel) (uid : SceUID) : Kernel :=
  match k.kernelObjectMap uid with
  | some (.thread t) => { k with threadList := k.threadList.erase t.uid }
  | _ => k

/-- `destroy_kernel_object`. -/
def Kernel.destroyKernelObject (k : Kernel) (uid : SceUID) : Kernel × Bool :=
  match k.kernelObjectMap uid with
  | none => (k, false)
  | some _ =>
    let k := k.removeUidFromList uid
    ({ k with kernelObjectMap := Function.update k.kernelObjectMap uid none }, true)

/-- `get_current_thread`: the slot of the current core, of which there are four. -/
def Kernel.getCurrentThread (k : Kernel) : Except Trap (Option SceUID) :=
  if h : 0 ≤ k.currentCore ∧ k.currentCore < 4 then
    .ok (k.currentThread ⟨k.currentCore.toNat, by omega⟩)
  else .error .outOfBounds

/-- A store through the `Thread *` of `uid`. -/
def Kernel.setThread (k : Kernel) (uid : SceUID) (t : Thread) : Kernel :=
  { k with kernelObjectMap := Function.update k.kernelObjectMap uid (some (.thread t)) }

/-- The context a thread starts with, given the address one past its stack. -/
def Thread.startContext (t : Thread) (stack : Word) : RegisterContext where
  reg := Function.update (Function.update (Function.update t.context.reg
    15 t.entryPoint) 14 0xBAD4F00D#32) 13 stack
  cpsr := 0x400001f3#32

/-- `start_thread`. The addresses that the two allocations return are stored as they are. -/
def Kernel.startThread (k : Kernel) (maps : List MemoryMap) (thid : SceUID)
    (_argLen argPtr : Word) : Except Trap (Kernel × List MemoryMap × Int) :=
  match k.getThread thid with
  | none => .ok (k, maps, -1)
  | some t =>
    if argPtr ≠ 0 then .error .exited
    else
      let (maps, stack) := allocateStack maps t.stackSize t.name
      let (maps, tls) := allocateHeap maps 0x1000#32 (t.name ++ "_tls")
      let t := { t with
        context := t.startContext stack
        tlsLowAddress := tls
        status := SCE_THREAD_READY }
      .ok (k.setThread thid t, maps, 0)

/-- `get_tls_addr`. -/
def Kernel.getTlsAddr (k : Kernel) (thid : SceUID) (key : Int) : Word :=
  match k.getThread thid with
  | none => 0xFFFFFFFF#32
  | some t =>
    if key ≥ 0 ∧ key ≤ 0x100 then t.tlsLowAddress + BitVec.ofInt 32 (key * 4)
    else 0xFFFFFFFF#32

/-! ## Lookup after the operations -/

theorem Kernel.getThread_new (uid : SceUID) : Kernel.new.getThread uid = none := rfl

theorem Kernel.getThread_of_map {k : Kernel} {uid : SceUID} {t : Thread}
    (h : k.kernelObjectMap uid = some (.thread t)) : k.getThread uid = some t := by
  rw [Kernel.getThread, h]

theorem Kernel.getThread_setThread (k : Kernel) (uid uid' : SceUID) (t : Thread) :
    (k.setThread uid t).getThread uid' = if uid' = uid then some t else k.getThread uid' := by
  unfold Kernel.getThread Kernel.setThread
  by_cases h : uid' = uid
  · subst h
    simp
  · simp [h]

@[simp] theorem Kernel.setThread_uidValue (k : Kernel) (uid : SceUID) (t : Thread) :
    (k.setThread uid t).uidValue = k.uidValue := rfl

@[simp] theorem Kernel.addUidToList_uidValue (k : Kernel) (uid : SceUID) :
    (k.addUidToList uid).uidValue = k.uidValue := by
  unfold Kernel.addUidToList
  split <;> rfl

@[simp] theorem Kernel.getThread_addUidToList (k : Kernel) (uid uid' : SceUID) :
    (k.addUidToList uid).getThread uid' = k.getThread uid' := by
  unfold Kernel.addUidToList
  split <;> rfl

/-- A created thread is stored under the uid that is returned, the next one free;
all other lookups are as before. -/
theorem Kernel.createThread_ok {k k' : Kernel} {name : String} {entry stackSize attr option : Word}
    {initPriority : Int} {uid : SceUID}
    (h : k.createThread name entry initPriority stackSize attr option = .ok (k', uid)) :
    uid = k.uidValue ∧ k'.uidValue = k.uidValue + 1 ∧
      k'.getThread uid = some (.created name entry initPriority stackSize attr uid) ∧
      ∀ uid', uid' ≠ uid → k'.getThread uid' = k.getThread uid' := by
  unfold Kernel.createThread Kernel.createKernelObject Kernel.generateUid at h
  split at h
  · cases h
  · cases h
    refine ⟨rfl, by simp, ?_, fun uid' hne => ?_⟩
    · rw [Kernel.getThread_addUidToList]
      exact Kernel.getThread_of_map (Function.update_self ..)
    · rw [Kernel.getThread_addUidToList]
      simp [Kernel.getThread, Function.update_of_ne hne]

end Betavita.Hle
