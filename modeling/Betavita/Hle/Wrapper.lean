import Betavita.Hle.Display
import Betavita.Hle.Runtime
import Betavita.Hle.SceLibKernel
import Betavita.Hle.SceSysmem
import Betavita.Processor.Registers

/-!
# wrapper.h, main.cpp — calls from the guest

`handle_svc` leads a supervisor call to the wrapper of its function. A wrapper takes the
arguments from the first registers, calls the function and puts what it returns into R0.
-/

namespace Betavita.Hle

open Memory Processor

/-- What the functions work on: the kernel with its display, the maps and the static
`fake_address`. -/
structure HleState where
  kernel : Kernel
  display : Display
  maps : List MemoryMap
  fakeAddress : Word

/-- The emulator while the engine may run: `running` is what `uc_emu_stop` ends. -/
structure Machine where
  hle : HleState
  engine : RegisterFile
  running : Bool

/-! ## SceLibKernel -/

/-- `get_current_thread()->get_uid()`. There is no object behind a null pointer, and none
behind a pointer to a thread that was destroyed. -/
def Kernel.currentThreadUid (k : Kernel) : Except Trap SceUID := do
  match ← k.getCurrentThread with
  | none => .error .nullAccess
  | some uid =>
    match k.getThread uid with
    | none => .error .outOfBounds
    | some t => .ok t.uid

def sceKernelGetThreadId (k : Kernel) : Except Trap Int := k.currentThreadUid

/-- `sceKernelCreateMutex`: what is logged of a name is read up to its end. -/
def sceKernelCreateMutex (maps : List MemoryMap) (namePtr _attr : Word) (_initCount : Int)
    (_option : Word) : Except Trap Int :=
  match getPointerUnchecked maps namePtr with
  | none => .ok (-1)
  | some name => do
    let _ ← readCString maps (some name)
    return -1

def sceKernelLockMutex (_mutexId _lockCount : Int) (_timeout : Word) : Int := -1

def sceKernelUnlockMutex (_mutexId _unlockCount : Int) : Int := -1

/-- `sceKernelGetTLSAddr`: the address goes through an `int` and back. -/
def sceKernelGetTLSAddr (k : Kernel) (key : Int) : Except Trap Word := do
  let uid ← k.currentThreadUid
  return k.getTlsAddr uid key

/-! ## The wrappers -/

/-- `wrap<f>`: the arguments are read from the registers, from R0 on. -/
def Machine.wrap (m : Machine) (f : (Nat → Word) → HleState → Except Trap (HleState × Word)) :
    Except Trap Machine := do
  let r : Nat → Word := fun i => readRegisterFromApi m.engine i
  let (hle, retval) ← f r m.hle
  return { m with hle := hle, engine := writeRegisterFromApi m.engine 0 retval }

/-- `(uint32_t) f(..)` of an `int` that leaves the state alone. -/
def HleState.pureCall (s : HleState) (ret : Except Trap Int) : Except Trap (HleState × Word) :=
  ret.map fun ret => (s, BitVec.ofInt 32 ret)

/-- A call of the memory block functions. -/
def HleState.sysmemCall (s : HleState) (call : SysmemCall) : Except Trap (HleState × Word) :=
  (SysmemSys.perform ⟨s.maps, s.fakeAddress⟩ call).map fun (sys, ret) =>
    ({ s with maps := sys.maps, fakeAddress := sys.fakeAddress }, BitVec.ofInt 32 ret)

/-- A call of `sceClibMemset` or `sceClibMemmove`. -/
def HleState.clibCall (s : HleState) (ret : Except Trap (List MemoryMap × Word)) :
    Except Trap (HleState × Word) :=
  ret.map fun (maps, ret) => ({ s with maps := maps }, ret)

/-- `func_wrapper()` of an entry of the module tables. -/
def Machine.callFuncWrapper (m : Machine) (w : FuncWrapper) : Except Trap Machine :=
  match w with
  | .sceKernelAllocMemBlock => m.wrap fun r s =>
    s.sysmemCall (.allocMemBlock (r 0) (r 1) (r 2) (r 3))
  | .sceKernelGetMemBlockBase => m.wrap fun r s =>
    s.sysmemCall (.getMemBlockBase (r 0).toInt (r 1))
  | .sceKernelGetThreadId => m.wrap fun _ s => s.pureCall (sceKernelGetThreadId s.kernel)
  | .sceKernelCreateMutex => m.wrap fun r s =>
    s.pureCall (sceKernelCreateMutex s.maps (r 0) (r 1) (r 2).toInt (r 3))
  | .sceKernelLockMutex => m.wrap fun r s =>
    s.pureCall (.ok (sceKernelLockMutex (r 0).toInt (r 1).toInt (r 2)))
  | .sceKernelUnlockMutex => m.wrap fun r s =>
    s.pureCall (.ok (sceKernelUnlockMutex (r 0).toInt (r 1).toInt))
  | .sceKernelGetTLSAddr => m.wrap fun r s =>
    (sceKernelGetTLSAddr s.kernel (r 0).toInt).map fun ret => (s, ret)
  | .sceClibMemset => m.wrap fun r s => s.clibCall (sceClibMemset s.maps (r 0) (r 1) (r 2))
  | .sceClibMemmove => m.wrap fun r s => s.clibCall (sceClibMemmove s.maps (r 0) (r 1) (r 2))
  | .sceDisplaySetFramebuf => m.wrap fun r s =>
    (sceDisplaySetFramebuf s.display s.maps (r 0) (r 1)).map fun (display, ret) =>
      ({ s with display := display }, BitVec.ofInt 32 ret)

/-- `handle_svc`, called while the engine runs: an address without a function stops it. -/
def Machine.handleSvc (rt : Runtime) (m : Machine) : Except Trap Machine :=
  match Hle.handleSvc rt m.hle.kernel (m.engine .pc) with
  | (kernel, .stopped) => .ok { m with hle := { m.hle with kernel := kernel }, running := false }
  | (kernel, .called w) =>
    { m with hle := { m.hle with kernel := kernel } }.callFuncWrapper w

/-! ## What a call changes -/

theorem Machine.wrap_ok {m m' : Machine}
    {f : (Nat → Word) → HleState → Except Trap (HleState × Word)} :
    m.wrap f = .ok m' ↔ ∃ hle ret,
      f (fun i => readRegisterFromApi m.engine i) m.hle = .ok (hle, ret) ∧
      m' = { m with hle := hle, engine := ucRegWrite m.engine (.r 0) ret } := by
  constructor
  · intro h
    obtain ⟨⟨hle, ret⟩, hf, h⟩ := bind_ok.mp h
    cases h
    exact ⟨hle, ret, hf, rfl⟩
  · rintro ⟨hle, ret, hf, rfl⟩
    exact bind_ok.mpr ⟨(hle, ret), hf, rfl⟩

theorem HleState.pureCall_ok {s s' : HleState} {ret : Except Trap Int} {v : Word}
    (h : s.pureCall ret = .ok (s', v)) : s' = s ∧ ∃ i, ret = .ok i ∧ v = BitVec.ofInt 32 i := by
  obtain ⟨i, hi, heq⟩ := Results.map_ok.mp h
  cases heq
  exact ⟨rfl, i, hi, rfl⟩

theorem hostMemcpy_sameMaps {maps maps' : List MemoryMap} {dst : Option HostPtr}
    {src : List Byte} (h : hostMemcpy maps dst src = .ok maps') : SameMaps maps maps' := by
  unfold hostMemcpy at h
  split at h
  · split at h
    · cases h
      exact .refl _
    · cases h
  · exact writeBytes_sameMaps h

theorem sceClibMemset_sameMaps {maps maps' : List MemoryMap} {dst ch len ret : Word}
    (h : sceClibMemset maps dst ch len = .ok (maps', ret)) :
    SameMaps maps maps' ∧ ret = dst := by
  unfold sceClibMemset at h
  split at h
  · obtain ⟨maps₁, hset, h⟩ := bind_ok.mp h
    cases h
    exact ⟨hostMemcpy_sameMaps hset, rfl⟩
  · cases h
    exact ⟨.refl _, rfl⟩

theorem sceClibMemmove_sameMaps {maps maps' : List MemoryMap} {dst src len ret : Word}
    (h : sceClibMemmove maps dst src len = .ok (maps', ret)) :
    SameMaps maps maps' ∧ ret = dst := by
  unfold sceClibMemmove at h
  dsimp only at h
  split at h
  · obtain ⟨maps₁, hmove, h⟩ := bind_ok.mp h
    cases h
    refine ⟨?_, rfl⟩
    unfold hostMemmove at hmove
    split at hmove
    · split at hmove
      · cases hmove
        exact .refl _
      · cases hmove
    · obtain ⟨bytes, -, hcpy⟩ := bind_ok.mp hmove
      exact hostMemcpy_sameMaps hcpy
  · cases h
    exact ⟨.refl _, rfl⟩

/-- What each function makes of the state and what it returns, in the order of the tables. -/
inductive Called (m : Machine) : FuncWrapper → HleState → Word → Prop
  | allocMemBlock {name : List Byte}
      (hname : readCString m.hle.maps
        (getPointerUnchecked m.hle.maps (m.engine (.r 0))) = .ok name) :
      Called m .sceKernelAllocMemBlock
        { m.hle with
          maps := (allocateHeap m.hle.maps (m.engine (.r 2)) (memblockName name)).1
          fakeAddress := (allocateHeap m.hle.maps (m.engine (.r 2)) (memblockName name)).2 } 2
  | getMemBlockBase {maps : List MemoryMap}
      (hbase : (getPointerUnchecked m.hle.maps (m.engine (.r 1)) = none ∧ maps = m.hle.maps) ∨
        ∃ base, getPointerUnchecked m.hle.maps (m.engine (.r 1)) = some base ∧
          writeWord m.hle.maps base m.hle.fakeAddress = .ok maps) :
      Called m .sceKernelGetMemBlockBase { m.hle with maps := maps } 0
  | getThreadId {uid : SceUID} (huid : m.hle.kernel.currentThreadUid = .ok uid) :
      Called m .sceKernelGetThreadId m.hle (BitVec.ofInt 32 uid)
  | createMutex : Called m .sceKernelCreateMutex m.hle (-1)
  | lockMutex : Called m .sceKernelLockMutex m.hle (-1)
  | unlockMutex : Called m .sceKernelUnlockMutex m.hle (-1)
  | getTLSAddr {uid : SceUID} (huid : m.hle.kernel.currentThreadUid = .ok uid) :
      Called m .sceKernelGetTLSAddr m.hle
        (m.hle.kernel.getTlsAddr uid (m.engine (.r 0)).toInt)
  | memset {maps : List MemoryMap} {ret : Word}
      (hset : sceClibMemset m.hle.maps (m.engine (.r 0)) (m.engine (.r 1)) (m.engine (.r 2)) =
        .ok (maps, ret)) :
      Called m .sceClibMemset { m.hle with maps := maps } ret
  | memmove {maps : List MemoryMap} {ret : Word}
      (hmove : sceClibMemmove m.hle.maps (m.engine (.r 0)) (m.engine (.r 1)) (m.engine (.r 2)) =
        .ok (maps, ret)) :
      Called m .sceClibMemmove { m.hle with maps := maps } ret
  | setFramebuf {display : Display}
      (hset : sceDisplaySetFramebuf m.hle.display m.hle.maps (m.engine (.r 0)) (m.engine (.r 1)) =
        .ok (display, 0)) :
      Called m .sceDisplaySetFramebuf { m.hle with display := display } 0

theorem sceKernelCreateMutex_ok {maps : List MemoryMap} {namePtr attr option : Word}
    {initCount ret : Int}
    (h : sceKernelCreateMutex maps namePtr attr initCount option = .ok ret) : ret = -1 := by
  unfold sceKernelCreateMutex at h
  split at h
  · cases h
    rfl
  · obtain ⟨_, -, h⟩ := bind_ok.mp h
    cases h
    rfl

theorem sceDisplaySetFramebuf_ret {display display' : Display} {maps : List MemoryMap}
    {pParam sync : Word} {ret : Int}
    (h : sceDisplaySetFramebuf display maps pParam sync = .ok (display', ret)) : ret = 0 := by
  obtain ⟨_, -, h⟩ := bind_ok.mp h
  cases h
  rfl

theorem sceKernelGetMemBlockBase_cases {s s' : SysmemSys} {uid ret : Int} {baseAddr : Word}
    (h : sceKernelGetMemBlockBase s uid baseAddr = .ok (s', ret)) :
    ret = 0 ∧ s'.fakeAddress = s.fakeAddress ∧
      ((getPointerUnchecked s.maps baseAddr = none ∧ s'.maps = s.maps) ∨
        ∃ base, getPointerUnchecked s.maps baseAddr = some base ∧
          writeWord s.maps base s.fakeAddress = .ok s'.maps) := by
  unfold sceKernelGetMemBlockBase at h
  split at h
  · rename_i hnone
    cases h
    exact ⟨rfl, rfl, .inl ⟨hnone, rfl⟩⟩
  · rename_i base hbase
    obtain ⟨maps, hwrite, h⟩ := bind_ok.mp h
    cases h
    exact ⟨rfl, rfl, .inr ⟨base, hbase, hwrite⟩⟩

/-- A call changes R0 and what its function changes. -/
theorem Machine.callFuncWrapper_ok {m m' : Machine} {w : FuncWrapper}
    (h : m.callFuncWrapper w = .ok m') : ∃ hle ret, Called m w hle ret ∧
      m' = { m with hle := hle, engine := ucRegWrite m.engine (.r 0) ret } := by
  unfold Machine.callFuncWrapper at h
  cases w with
  | sceKernelAllocMemBlock =>
    obtain ⟨hle, ret, hcall, rfl⟩ := Machine.wrap_ok.mp h
    obtain ⟨⟨sys, ret'⟩, hsys, heq⟩ := Results.map_ok.mp hcall
    have halloc : sceKernelAllocMemBlock ⟨m.hle.maps, m.hle.fakeAddress⟩ (m.engine (.r 0))
      (m.engine (.r 1)) (m.engine (.r 2)) (m.engine (.r 3)) = .ok (sys, ret') := hsys
    obtain ⟨name, hname, rfl, rfl⟩ := sceKernelAllocMemBlock_ok halloc
    cases heq
    exact ⟨_, _, .allocMemBlock hname, rfl⟩
  | sceKernelGetMemBlockBase =>
    obtain ⟨hle, ret, hcall, rfl⟩ := Machine.wrap_ok.mp h
    obtain ⟨⟨sys, ret'⟩, hsys, heq⟩ := Results.map_ok.mp hcall
    have hget : sceKernelGetMemBlockBase ⟨m.hle.maps, m.hle.fakeAddress⟩
      (m.engine (.r 0)).toInt (m.engine (.r 1)) = .ok (sys, ret') := hsys
    obtain ⟨rfl, hfake, hbase⟩ := sceKernelGetMemBlockBase_cases hget
    cases heq
    refine ⟨_, _, ?_, rfl⟩
    rw [hfake]
    exact .getMemBlockBase hbase
  | sceKernelGetThreadId =>
    obtain ⟨hle, ret, hcall, rfl⟩ := Machine.wrap_ok.mp h
    obtain ⟨rfl, uid, huid, rfl⟩ := HleState.pureCall_ok hcall
    exact ⟨_, _, .getThreadId huid, rfl⟩
  | sceKernelCreateMutex =>
    obtain ⟨hle, ret, hcall, rfl⟩ := Machine.wrap_ok.mp h
    obtain ⟨rfl, i, hi, rfl⟩ := HleState.pureCall_ok hcall
    obtain rfl := sceKernelCreateMutex_ok hi
    exact ⟨_, _, .createMutex, rfl⟩
  | sceKernelLockMutex =>
    obtain ⟨hle, ret, hcall, rfl⟩ := Machine.wrap_ok.mp h
    obtain ⟨rfl, i, hi, rfl⟩ := HleState.pureCall_ok hcall
    cases hi
    exact ⟨_, _, .lockMutex, rfl⟩
  | sceKernelUnlockMutex =>
    obtain ⟨hle, ret, hcall, rfl⟩ := Machine.wrap_ok.mp h
    obtain ⟨rfl, i, hi, rfl⟩ := HleState.pureCall_ok hcall
    cases hi
    exact ⟨_, _, .unlockMutex, rfl⟩
  | sceKernelGetTLSAddr =>
    obtain ⟨hle, ret, hcall, rfl⟩ := Machine.wrap_ok.mp h
    obtain ⟨addr, haddr, heq⟩ := Results.map_ok.mp hcall
    obtain ⟨uid, huid, haddr⟩ := bind_ok.mp haddr
    cases haddr
    cases heq
    exact ⟨_, _, .getTLSAddr huid, rfl⟩
  | sceClibMemset =>
    obtain ⟨hle, ret, hcall, rfl⟩ := Machine.wrap_ok.mp h
    obtain ⟨⟨maps, ret'⟩, hset, heq⟩ := Results.map_ok.mp hcall
    cases heq
    exact ⟨_, _, .memset hset, rfl⟩
  | sceClibMemmove =>
    obtain ⟨hle, ret, hcall, rfl⟩ := Machine.wrap_ok.mp h
    obtain ⟨⟨maps, ret'⟩, hmove, heq⟩ := Results.map_ok.mp hcall
    cases heq
    exact ⟨_, _, .memmove hmove, rfl⟩
  | sceDisplaySetFramebuf =>
    obtain ⟨hle, ret, hcall, rfl⟩ := Machine.wrap_ok.mp h
    obtain ⟨⟨display, ret'⟩, hset, heq⟩ := Results.map_ok.mp hcall
    obtain rfl := sceDisplaySetFramebuf_ret hset
    cases heq
    exact ⟨_, _, .setFramebuf hset, rfl⟩

theorem Machine.getThreadId_eq {m : Machine} {uid : SceUID}
    (h : m.hle.kernel.currentThreadUid = .ok uid) :
    m.callFuncWrapper .sceKernelGetThreadId =
      .ok { m with engine := ucRegWrite m.engine (.r 0) (BitVec.ofInt 32 uid) } := by
  unfold Machine.callFuncWrapper
  refine Machine.wrap_ok.mpr ⟨m.hle, _, ?_, rfl⟩
  rw [sceKernelGetThreadId, h]
  rfl

theorem Machine.getTLSAddr_eq {m : Machine} {uid : SceUID}
    (h : m.hle.kernel.currentThreadUid = .ok uid) :
    m.callFuncWrapper .sceKernelGetTLSAddr =
      .ok { m with
        engine := ucRegWrite m.engine (.r 0)
          (m.hle.kernel.getTlsAddr uid (m.engine (.r 0)).toInt) } := by
  unfold Machine.callFuncWrapper
  refine Machine.wrap_ok.mpr ⟨m.hle, _, ?_, rfl⟩
  rw [sceKernelGetTLSAddr, h]
  rfl

/-- The function that a supervisor call behind which the program counter stands leads to. -/
def Runtime.functionAt (rt : Runtime) (pc : Word) : Option FuncWrapper :=
  ((rt.getFunctionFromAddress (pc - 4#32)).bind SvcCall.function).map HLEFunction.funcWrapper

/-- While core 0 is set, the handler only calls the function. -/
theorem Machine.handleSvc_eq {m : Machine} (h : m.hle.kernel.currentCore = 0) (rt : Runtime) :
    m.handleSvc rt = match rt.functionAt (m.engine .pc) with
      | none => .ok { m with running := false }
      | some w => m.callFuncWrapper w := by
  have hset : m.hle.kernel.setCore 0 = m.hle.kernel := by
    rw [Kernel.setCore, ← h]
  unfold Machine.handleSvc Hle.handleSvc Runtime.functionAt
  cases hsvc : rt.getFunctionFromAddress (m.engine .pc - 4#32) with
  | none => simp only [hsvc, Option.bind_none, Option.map_none]
  | some svc =>
    cases hfunction : svc.function with
    | none => simp only [hsvc, hfunction, Option.bind_some, Option.map_none]
    | some function => simp only [hsvc, hfunction, Option.bind_some, Option.map_some, hset]

end Betavita.Hle
