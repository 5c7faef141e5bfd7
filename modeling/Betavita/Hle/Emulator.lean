import Betavita.Hle.Dispatch
import Betavita.Hle.GuestRun

/-!
# kernel.cpp, main.cpp — the emulator

`run_single_thread_with_events` around a run of the engine in which the guest makes its
calls. The system of `SchedStep` takes such a run for an arbitrary transformation of the
registers and the maps; every run of the emulator is one of that system.
-/

namespace Betavita.Hle

open Memory Processor Transition

/-- `run_single_thread_with_events` from the thread that was fetched to `uc_emu_start`. -/
def Machine.beginSlice (m : Machine) (k : Kernel) (t : Thread) : Machine :=
  let availableCore := getAvailableCore
  let k := { k with
    currentThread := Function.update k.currentThread availableCore (some t.uid)
    currentCore := availableCore.val }
  let t := { t with status := SCE_THREAD_RUNNING }
  let engine := writeRegisters m.engine t.context
  let engine := writeRegisterFromApi engine 16 t.context.cpsr
  let t := { t with context := { t.context with cpsr := readRegisterFromApi engine 16 } }
  { m with
    hle := { m.hle with kernel := k.setThread t.uid t }
    engine := engine
    running := true }

/-- The rest of it, after `uc_emu_start` has returned; `uid` is that of the thread. -/
def Machine.endSlice (m : Machine) (uid : SceUID) : Except Trap Machine :=
  match m.hle.kernel.getThread uid with
  | none => .error .outOfBounds
  | some t =>
    let t := { t with context := readContext m.engine }
    let t := if t.status = SCE_THREAD_RUNNING then { t with status := SCE_THREAD_READY } else t
    .ok { m with hle := { m.hle with kernel := m.hle.kernel.setThread uid t }, running := false }

/-- The emulator with a fresh kernel, whose display is given no frame buffer. -/
def Machine.fresh (display : Display) (maps : List MemoryMap) (engine : RegisterFile) :
    Machine where
  hle := ⟨Kernel.new, display.withoutFramebuffer 0, maps, 0⟩
  engine := engine
  running := false

/-- The calls of the emulator, with what happens during a slice and what is seen of it. -/
inductive EmuCall
  | createThread (name : String) (entry : Word) (initPriority : Int)
      (stackSize attr option : Word)
  | startThread (thid : SceUID) (argLen argPtr : Word)
  | destroy (uid : SceUID)
  | run (events : List GuestEvent) (slice : Option Slice)

/-- The calls that return, where the engine runs by steps of `guest`. -/
inductive EmuStep (guest : Machine → GuestEvent → Machine → Prop) :
    Machine → EmuCall → Machine → Prop
  | createThread {m : Machine} {name : String} {entry : Word} {initPriority : Int}
      {stackSize attr option : Word} {kernel : Kernel} {uid : SceUID}
      (hcreate : m.hle.kernel.createThread name entry initPriority stackSize attr option =
        .ok (kernel, uid)) :
      EmuStep guest m (.createThread name entry initPriority stackSize attr option)
        { m with hle := { m.hle with kernel := kernel } }
  | startThread {m : Machine} {thid : SceUID} {argLen argPtr : Word} {kernel : Kernel}
      {maps : List MemoryMap} {ret : Int}
      (hstart : m.hle.kernel.startThread m.hle.maps thid argLen argPtr =
        .ok (kernel, maps, ret)) :
      EmuStep guest m (.startThread thid argLen argPtr)
        { m with hle := { m.hle with kernel := kernel, maps := maps } }
  | destroy {m : Machine} {uid : SceUID} :
      EmuStep guest m (.destroy uid)
        { m with hle := { m.hle with kernel := (m.hle.kernel.destroyKernelObject uid).1 } }
  | idle {m : Machine} {kernel : Kernel}
      (hfetch : m.hle.kernel.fetchReadyThread = (kernel, none)) :
      EmuStep guest m (.run [] none) { m with hle := { m.hle with kernel := kernel } }
  | run {m m₁ m' : Machine} {kernel : Kernel} {t : Thread} {events : List GuestEvent}
      (hfetch : m.hle.kernel.fetchReadyThread = (kernel, some t))
      (hguest : Steps guest (m.beginSlice kernel t) events m₁)
      (hend : m₁.endSlice t.uid = .ok m') :
      EmuStep guest m (.run events (some
        { uid := t.uid
          initial := (m.beginSlice kernel t).engine
          startPc := startPc t.context
          final := m₁.engine })) m'

theorem EmuStep.weaken {guest guest' : Machine → GuestEvent → Machine → Prop}
    (hguest : ∀ m event m', guest m event m' → guest' m event m') {m m' : Machine} {c : EmuCall}
    (h : EmuStep guest m c m') : EmuStep guest' m c m' := by
  cases h with
  | createThread hcreate => exact .createThread hcreate
  | startThread hstart => exact .startThread hstart
  | destroy => exact .destroy
  | idle hfetch => exact .idle hfetch
  | run hfetch hrun hend => exact .run hfetch (hrun.weaken hguest) hend

/-! ## A slice -/

/-- The kernel while the engine runs for `t`. -/
def Kernel.duringSlice (k : Kernel) (t : Thread) : Kernel :=
  { k with
    currentThread := Function.update k.currentThread getAvailableCore (some t.uid)
    currentCore := 0 }.setThread t.uid { t with status := SCE_THREAD_RUNNING }

theorem Machine.beginSlice_eq (m : Machine) (k : Kernel) (t : Thread) :
    m.beginSlice k t =
      { m with
        hle := { m.hle with kernel := k.duringSlice t }
        engine := .ofContext t.context
        running := true } := by
  have hengine := writeRegisters_cpsr m.engine t.context
  unfold Machine.beginSlice
  simp only [hengine]
  rfl

theorem Kernel.getThread_duringSlice (k : Kernel) (t : Thread) (u : SceUID) :
    (k.duringSlice t).getThread u =
      if u = t.uid then some { t with status := SCE_THREAD_RUNNING } else k.getThread u := by
  unfold Kernel.duringSlice
  rw [Kernel.getThread_setThread]
  rfl

/-- The engine leaves the kernel as the slice began with it. -/
theorem GuestRun.kernel {rt : Runtime} {m m₁ : Machine} {k : Kernel} {t : Thread}
    {events : List GuestEvent} (hguest : Steps (GuestStep rt) (m.beginSlice k t) events m₁) :
    m₁.hle.kernel = k.duringSlice t := by
  rw [Machine.beginSlice_eq] at hguest
  exact (GuestRun.frame hguest rfl).1

/-- The program counters of the supervisor calls. -/
def supervisorCalls (events : List GuestEvent) : List Word :=
  events.filterMap fun
    | .code .. => none
    | .svc pc => some pc

/-- What a run of the engine did, as the scheduler sees it. -/
def Machine.execution (m₁ : Machine) (events : List GuestEvent) : Execution where
  registers := fun _ _ => m₁.engine
  supervisorCalls := supervisorCalls events
  maps := fun _ => m₁.hle.maps

/-- The slice ends in the kernel that the scheduler computes. -/
theorem Machine.endSlice_eq {rt : Runtime} {m m₁ : Machine} {k : Kernel} {t : Thread}
    {events : List GuestEvent} (hguest : Steps (GuestStep rt) (m.beginSlice k t) events m₁) :
    m₁.endSlice t.uid = .ok { m₁ with
      hle := { m₁.hle with kernel := k.afterSlice t (m₁.execution events) }
      running := false } := by
  have hkernel := GuestRun.kernel hguest
  have hget : m₁.hle.kernel.getThread t.uid = some { t with status := SCE_THREAD_RUNNING } := by
    rw [hkernel, Kernel.getThread_duringSlice, if_pos rfl]
  unfold Machine.endSlice
  rw [hget]
  simp only [if_true, hkernel, Kernel.duringSlice, Kernel.setThread_setThread]
  rfl

/-! ## The system of the scheduler -/

/-- What the scheduler sees of the emulator. -/
def Machine.sched (m : Machine) : SchedSys := ⟨m.hle.kernel, m.engine, m.hle.maps⟩

/-- The calls agree, and so does what is seen of a slice and of its supervisor calls. -/
inductive EmuCall.Shows : EmuCall → SchedCall → Prop
  | createThread {name : String} {entry : Word} {initPriority : Int}
      {stackSize attr option : Word} :
      Shows (.createThread name entry initPriority stackSize attr option)
        (.createThread name entry initPriority stackSize attr option)
  | startThread {thid : SceUID} {argLen argPtr : Word} :
      Shows (.startThread thid argLen argPtr) (.startThread thid argLen argPtr)
  | destroy {uid : SceUID} : Shows (.destroy uid) (.destroy uid)
  | run {events : List GuestEvent} {slice : Option Slice} {exec : Execution}
      (hcalls : exec.supervisorCalls = supervisorCalls events) :
      Shows (.run events slice) (.run exec slice)

/-- A step of the emulator is a step of the scheduler. -/
theorem EmuStep.sched {rt : Runtime} {m m' : Machine} {c : EmuCall}
    (h : EmuStep (GuestStep rt) m c m') :
    ∃ c', c.Shows c' ∧ SchedStep FetchPick rt m.sched c' m'.sched := by
  cases h with
  | createThread hcreate => exact ⟨_, .createThread, .createThread hcreate⟩
  | startThread hstart => exact ⟨_, .startThread, .startThread hstart⟩
  | destroy => exact ⟨_, .destroy, .destroy⟩
  | @idle kernel hfetch =>
    have hrun : Kernel.runFetched rt m.engine idleExecution m.hle.kernel.fetchReadyThread =
        (kernel, m.engine, none) := by
      rw [hfetch]
      rfl
    exact ⟨.run idleExecution none, .run rfl, .run rfl hrun⟩
  | @run m₁ _ kernel t events hfetch hguest hend =>
    rw [Machine.endSlice_eq hguest] at hend
    cases hend
    have hrun : Kernel.runFetched rt m.engine (m₁.execution events)
        m.hle.kernel.fetchReadyThread =
          (kernel.afterSlice t (m₁.execution events), m₁.engine,
            some (t.slice (m₁.execution events))) := by
      rw [hfetch, Kernel.runFetched_some]
      rfl
    have hslice : t.slice (m₁.execution events) =
        { uid := t.uid
          initial := (m.beginSlice kernel t).engine
          startPc := startPc t.context
          final := m₁.engine } := by
      rw [Machine.beginSlice_eq]
      rfl
    rw [hslice] at hrun
    exact ⟨.run (m₁.execution events) _, .run rfl, .run rfl hrun⟩

/-- Every run of the emulator, whatever the guest does in its slices, is a run of the
scheduler's system on the kernel, the registers and the maps. -/
theorem emulator_refines {rt : Runtime} {m m' : Machine} {calls : List EmuCall}
    (hrun : Steps (EmuStep (GuestStep rt)) m calls m') :
    ∃ calls', List.Forall₂ EmuCall.Shows calls calls' ∧
      Steps (SchedStep FetchPick rt) m.sched calls' m'.sched := by
  induction hrun with
  | nil => exact ⟨[], .nil, .nil⟩
  | snoc _ hlast ih =>
    obtain ⟨calls', hshows, hrun'⟩ := ih
    obtain ⟨c', hshow, hstep⟩ := hlast.sched
    exact ⟨calls' ++ [c'], List.rel_append hshows (.cons hshow .nil), .snoc hrun' hstep⟩

/-- A display of which nothing was set. -/
def noDisplay : Display := ⟨⟨0, 0, 0, 0, 0, 0⟩, 0⟩

/-- The registers of a guest that comes to the import of `lockRuntime`. -/
def atImport : RegisterFile := fun reg => if reg = .pc then 0x81000014#32 else 0

/-- A thread is created and started, and calls `sceKernelLockMutex` in its slice. -/
theorem lock_slice :
    ∃ (m₀ m₁ m' : Machine) (kernel : Kernel) (t : Thread),
      Steps (EmuStep (GuestStep lockRuntime)) (.fresh noDisplay [] fun _ => 0)
        [.createThread "main" 0x81000000#32 160 0x1000#32 0 0, .startThread 0x100 0 0] m₀ ∧
      m₀.hle.kernel.fetchReadyThread = (kernel, some t) ∧
      Steps (GuestStep lockRuntime) (m₀.beginSlice kernel t)
        [.code atImport m₀.hle.maps, .svc 0x81000014#32] m₁ ∧
      m₁.endSlice t.uid = .ok m' ∧ t.uid = 0x100 ∧ m₁.engine (.r 0) = -1 := by
  obtain ⟨m₀, hbefore, kernel, t, hfetch, huid⟩ : ∃ m₀,
      Steps (EmuStep (GuestStep lockRuntime)) (.fresh noDisplay [] fun _ => 0)
        (([] ++ [.createThread "main" 0x81000000#32 160 0x1000#32 0 0]) ++
          [.startThread 0x100 0 0]) m₀ ∧
        ∃ kernel t, m₀.hle.kernel.fetchReadyThread = (kernel, some t) ∧ t.uid = 0x100 :=
    ⟨_, .snoc (.snoc .nil (.createThread rfl)) (.startThread rfl), _, _, rfl, rfl⟩
  have hguest : Steps (GuestStep lockRuntime) (m₀.beginSlice kernel t)
      (([] ++ [.code atImport m₀.hle.maps]) ++ [.svc 0x81000014#32]) _ :=
    .snoc (.snoc .nil (.code rfl (.refl _))) (.svc rfl (lockRuntime_handleSvc rfl rfl))
  exact ⟨m₀, _, _, kernel, t, hbefore, hfetch, hguest, Machine.endSlice_eq hguest, huid, rfl⟩

/-- The run of such a slice is one of the scheduler. -/
theorem emulator_refines_lock :
    ∃ events slice m' calls',
      Steps (EmuStep (GuestStep lockRuntime)) (.fresh noDisplay [] fun _ => 0)
        [.createThread "main" 0x81000000#32 160 0x1000#32 0 0, .startThread 0x100 0 0,
          .run events (some slice)] m' ∧
      slice.uid = 0x100 ∧ slice.final (.r 0) = -1 ∧
      Steps (SchedStep FetchPick lockRuntime) (Machine.fresh noDisplay [] fun _ => 0).sched calls'
        m'.sched := by
  obtain ⟨m₀, m₁, m', kernel, t, hbefore, hfetch, hguest, hend, huid, hr0⟩ := lock_slice
  have hrun := hbefore.snoc (.run hfetch hguest hend)
  obtain ⟨calls', -, hsched⟩ := emulator_refines hrun
  exact ⟨_, _, m', calls', hrun, huid, hr0, hsched⟩

/-! ## What the guest sees of its thread -/

theorem Steps.emuIdle {rt : Runtime} {display : Display} {maps : List MemoryMap}
    {engine : RegisterFile} {calls : List EmuCall} {m : Machine}
    (hrun : Steps (EmuStep (GuestStep rt)) (.fresh display maps engine) calls m) :
    m.hle.kernel.Idle := by
  induction hrun with
  | nil => exact .new
  | snoc _ hlast ih =>
    obtain ⟨c', -, hstep⟩ := hlast.sched
    exact hstep.idle ih

/-- The word of a TLS key of a thread, or -1. -/
def Thread.tlsWord (t : Thread) (key : Int) : Word :=
  if key ≥ 0 ∧ key ≤ 0x100 then t.tlsLowAddress + BitVec.ofInt 32 (key * 4) else 0xFFFFFFFF#32

theorem Kernel.currentThreadUid_duringSlice (k : Kernel) (t : Thread) :
    (k.duringSlice t).currentThreadUid = .ok t.uid := by
  have hslot : (k.duringSlice t).getCurrentThread = .ok (some t.uid) := by
    simp [Kernel.getCurrentThread, Kernel.duringSlice, Kernel.setThread, getAvailableCore]
  unfold Kernel.currentThreadUid
  rw [hslot, ok_bind]
  simp only [Kernel.getThread_duringSlice, if_true]

/-- In every slice of every run, after whatever the guest did so far: the dispatched thread
is the one that is RUNNING, `sceKernelGetThreadId` returns its uid, and
`sceKernelGetTLSAddr` returns the word of a key in its TLS block, or -1. Both leave all
but R0 as it is. -/
theorem guest_identity {rt : Runtime} {display : Display} {maps : List MemoryMap}
    {engine : RegisterFile} {calls : List EmuCall} {m : Machine}
    (hrun : Steps (EmuStep (GuestStep rt)) (.fresh display maps engine) calls m) {kernel : Kernel}
    {t : Thread} (hfetch : m.hle.kernel.fetchReadyThread = (kernel, some t))
    {events : List GuestEvent} {m₁ : Machine}
    (hguest : Steps (GuestStep rt) (m.beginSlice kernel t) events m₁) :
    (∀ u t', m₁.hle.kernel.getThread u = some t' →
        (t'.status = SCE_THREAD_RUNNING ↔ u = t.uid)) ∧
      m₁.callFuncWrapper .sceKernelGetThreadId =
        .ok { m₁ with engine := ucRegWrite m₁.engine (.r 0) (BitVec.ofInt 32 t.uid) } ∧
      m₁.callFuncWrapper .sceKernelGetTLSAddr =
        .ok { m₁ with
          engine := ucRegWrite m₁.engine (.r 0) (t.tlsWord (m₁.engine (.r 0)).toInt) } := by
  have hidle := Steps.emuIdle hrun
  have hkernel := GuestRun.kernel hguest
  have huid : m₁.hle.kernel.currentThreadUid = .ok t.uid := by
    rw [hkernel, Kernel.currentThreadUid_duringSlice]
  have hself : m₁.hle.kernel.getThread t.uid = some { t with status := SCE_THREAD_RUNNING } := by
    rw [hkernel, Kernel.getThread_duringSlice, if_pos rfl]
  refine ⟨fun u t' ht' => ?_, ?_, ?_⟩
  · obtain ⟨rfl, -, -⟩ := hidle.fetch_some hfetch
    rw [hkernel, Kernel.getThread_duringSlice] at ht'
    split at ht'
    · rename_i heq
      cases ht'
      exact iff_of_true rfl heq
    · rename_i hne
      exact iff_of_false (hidle.idle u t' ht') hne
  · exact Machine.getThreadId_eq huid
  · have htls : m₁.hle.kernel.getTlsAddr t.uid (m₁.engine (.r 0)).toInt =
        t.tlsWord (m₁.engine (.r 0)).toInt := by
      rw [Kernel.getTlsAddr, hself]
      rfl
    rw [Machine.getTLSAddr_eq huid, htls]

/-- In the slice of the first thread its uid is returned. -/
theorem guest_identity_lock :
    ∃ (m₀ m₁ m₂ : Machine) (kernel : Kernel) (t : Thread) (events : List GuestEvent),
      Steps (GuestStep lockRuntime) (m₀.beginSlice kernel t) events m₁ ∧
      m₁.callFuncWrapper .sceKernelGetThreadId = .ok m₂ ∧ m₂.engine (.r 0) = 0x100#32 := by
  obtain ⟨m₀, m₁, -, kernel, t, hbefore, hfetch, hguest, -, huid, -⟩ := lock_slice
  obtain ⟨-, hid, -⟩ := guest_identity hbefore hfetch hguest
  refine ⟨m₀, m₁, _, kernel, t, _, hguest, hid, ?_⟩
  rw [huid]
  rfl

end Betavita.Hle
