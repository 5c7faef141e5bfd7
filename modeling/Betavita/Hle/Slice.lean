import Betavita.Hle.Registry
import Betavita.Hle.Runtime
import Betavita.Hle.Scheduler
import Betavita.Lib.Transition
import Betavita.Processor.Registers

/-!
# kernel.cpp — running a thread for a slice

`run_single_thread_with_events` restores the registers of the thread that was fetched,
runs the engine and saves them again. While the engine runs, supervisor calls lead to
the functions of the registered modules, none of which writes to a thread.
-/

namespace Betavita.Hle

open Memory Processor

/-- What a run of the engine does: what `uc_emu_start` makes of the registers, the
program counter at each supervisor call, and what becomes of the maps. -/
structure Execution where
  registers : Word → RegisterFile → RegisterFile
  supervisorCalls : List Word
  maps : List MemoryMap → List MemoryMap

/-- What is seen of a slice: the registers before and after the run and the address at
which it starts. -/
structure Slice where
  uid : SceUID
  initial : RegisterFile
  startPc : Word
  final : RegisterFile

/-- `run_single_thread_with_events` from the call of `fetch_ready_thread` on. -/
def Kernel.runFetched (rt : Runtime) (engine : RegisterFile) (exec : Execution) :
    Kernel × Option Thread → Kernel × RegisterFile × Option Slice
  | (k, none) => (k, engine, none)
  | (k, some t) =>
    let availableCore := getAvailableCore
    let k := { k with
      currentThread := Function.update k.currentThread availableCore (some t.uid)
      currentCore := availableCore.val }
    let t := { t with status := SCE_THREAD_RUNNING }
    let engine := writeRegisters engine t.context
    let engine := writeRegisterFromApi engine 16 t.context.cpsr
    let t := { t with context := { t.context with cpsr := readRegisterFromApi engine 16 } }
    let k := k.setThread t.uid t
    -- `run_cpu_for`
    let slice : Slice :=
      { uid := t.uid
        initial := engine
        startPc := startPc t.context
        final := exec.registers (startPc t.context) engine }
    let k := exec.supervisorCalls.foldl (fun k pc => (handleSvc rt k pc).1) k
    let engine := slice.final
    let t := (k.getThread t.uid).getD t
    let t := { t with context := readContext engine }
    let t := if t.status = SCE_THREAD_RUNNING then { t with status := SCE_THREAD_READY } else t
    (k.setThread t.uid t, engine, some slice)

/-- `run_single_thread_with_events`. -/
def Kernel.runSingleThreadWithEvents (rt : Runtime) (k : Kernel) (engine : RegisterFile)
    (exec : Execution) : Kernel × RegisterFile × Option Slice :=
  Kernel.runFetched rt engine exec k.fetchReadyThread

/-! ## What a slice does -/

/-- The slice of a thread: its saved context is where it begins. -/
def Thread.slice (t : Thread) (exec : Execution) : Slice where
  uid := t.uid
  initial := .ofContext t.context
  startPc := startPc t.context
  final := exec.registers (startPc t.context) (.ofContext t.context)

/-- The thread after its slice. -/
def Thread.afterSlice (t : Thread) (exec : Execution) : Thread :=
  { t with status := SCE_THREAD_READY, context := readContext (t.slice exec).final }

/-- The kernel after a slice of `t`: the slot of core 0 and the thread have changed. -/
def Kernel.afterSlice (k : Kernel) (t : Thread) (exec : Execution) : Kernel :=
  { k with
    currentThread := Function.update k.currentThread getAvailableCore (some t.uid)
    currentCore := 0 }.setThread t.uid (t.afterSlice exec)

/-- A supervisor call finds core 0 set already. -/
theorem handleSvc_core {k : Kernel} (h : k.currentCore = 0) (rt : Runtime) (pc : Word) :
    (handleSvc rt k pc).1 = k := by
  have hset : k.setCore 0 = k := by
    rw [Kernel.setCore, ← h]
  unfold handleSvc
  dsimp only
  split
  · rfl
  · split
    · rfl
    · exact hset

theorem foldl_handleSvc {k : Kernel} (h : k.currentCore = 0) (rt : Runtime) (pcs : List Word) :
    pcs.foldl (fun k pc => (handleSvc rt k pc).1) k = k := by
  induction pcs with
  | nil => rfl
  | cons pc pcs ih => rw [List.foldl_cons, handleSvc_core h, ih]

theorem Kernel.setThread_setThread (k : Kernel) (uid : SceUID) (t t' : Thread) :
    (k.setThread uid t).setThread uid t' = k.setThread uid t' := by
  simp [Kernel.setThread]

theorem Kernel.runFetched_some (rt : Runtime) (engine : RegisterFile) (exec : Execution)
    (k : Kernel) (t : Thread) :
    Kernel.runFetched rt engine exec (k, some t) =
      (k.afterSlice t exec, (t.slice exec).final, some (t.slice exec)) := by
  have hengine := writeRegisters_cpsr engine t.context
  have hctx : ({ t.context with
      cpsr := readRegisterFromApi (RegisterFile.ofContext t.context) 16 } : RegisterContext) =
      t.context := rfl
  unfold Kernel.runFetched
  simp only [hengine, hctx]
  rw [foldl_handleSvc rfl]
  simp only [Kernel.getThread_setThread, if_true, Option.getD_some, Kernel.setThread_setThread]
  rfl

/-- Either nothing was fetched and nothing happens, or the thread that was fetched runs. -/
theorem Kernel.runFetched_cases {rt : Runtime} {engine engine' : RegisterFile} {exec : Execution}
    {k k' : Kernel} {picked : Option Thread} {slice : Option Slice}
    (h : Kernel.runFetched rt engine exec (k, picked) = (k', engine', slice)) :
    (picked = none ∧ slice = none ∧ k' = k) ∨
      ∃ t, picked = some t ∧ slice = some (t.slice exec) ∧ k' = k.afterSlice t exec := by
  cases picked with
  | none =>
    cases h
    exact .inl ⟨rfl, rfl, rfl⟩
  | some t =>
    rw [Kernel.runFetched_some] at h
    cases h
    exact .inr ⟨t, rfl, rfl, rfl⟩

/-! ## The system of calls -/

/-- The kernel, the registers of the engine and the maps. -/
structure SchedSys where
  kernel : Kernel
  engine : RegisterFile
  maps : List MemoryMap

/-- A fresh kernel. -/
def SchedSys.fresh (engine : RegisterFile) (maps : List MemoryMap) : SchedSys :=
  ⟨Kernel.new, engine, maps⟩

/-- The calls, with what is seen of the slice of a run. -/
inductive SchedCall
  | createThread (name : String) (entry : Word) (initPriority : Int)
      (stackSize attr option : Word)
  | startThread (thid : SceUID) (argLen argPtr : Word)
  | destroy (uid : SceUID)
  | setCore
  | run (exec : Execution) (slice : Option Slice)

/-- What `fetch_ready_thread` returns. -/
def FetchPick (k : Kernel) (fetched : Kernel × Option Thread) : Prop :=
  fetched = k.fetchReadyThread

/-- Whichever live thread is picked, and whatever is left of the queue. -/
def AnyPick (k : Kernel) (fetched : Kernel × Option Thread) : Prop :=
  (∃ queue, fetched.1 = { k with readyThreadsQueue := queue }) ∧
    ∀ t, fetched.2 = some t → ∃ uid, k.getThread uid = some t

/-- The calls that return. A `start_thread` with arguments ends the program. -/
inductive SchedStep (pick : Kernel → Kernel × Option Thread → Prop) (rt : Runtime) :
    SchedSys → SchedCall → SchedSys → Prop
  | createThread {s : SchedSys} {name : String} {entry : Word} {initPriority : Int}
      {stackSize attr option : Word} {kernel : Kernel} {uid : SceUID}
      (hcreate : s.kernel.createThread name entry initPriority stackSize attr option =
        .ok (kernel, uid)) :
      SchedStep pick rt s (.createThread name entry initPriority stackSize attr option)
        { s with kernel := kernel }
  | startThread {s : SchedSys} {thid : SceUID} {argLen argPtr : Word} {kernel : Kernel}
      {maps : List MemoryMap} {ret : Int}
      (hstart : s.kernel.startThread s.maps thid argLen argPtr = .ok (kernel, maps, ret)) :
      SchedStep pick rt s (.startThread thid argLen argPtr)
        { s with kernel := kernel, maps := maps }
  | destroy {s : SchedSys} {uid : SceUID} :
      SchedStep pick rt s (.destroy uid)
        { s with kernel := (s.kernel.destroyKernelObject uid).1 }
  | setCore {s : SchedSys} :
      SchedStep pick rt s .setCore { s with kernel := s.kernel.setCore 0 }
  | run {s : SchedSys} {exec : Execution} {fetched : Kernel × Option Thread} {kernel : Kernel}
      {engine : RegisterFile} {slice : Option Slice} (hpick : pick s.kernel fetched)
      (hrun : Kernel.runFetched rt s.engine exec fetched = (kernel, engine, slice)) :
      SchedStep pick rt s (.run exec slice) ⟨kernel, engine, exec.maps s.maps⟩

/-- `fetch_ready_thread` returns a live thread and writes to the queue only. -/
theorem FetchPick.any {k : Kernel} {fetched : Kernel × Option Thread} (h : FetchPick k fetched) :
    AnyPick k fetched := by
  rw [h, Kernel.fetchReadyThread_eq]
  split
  · exact ⟨⟨[], rfl⟩, by simp⟩
  · rename_i hne
    obtain ⟨_, last, -, -, hret, -⟩ := k.popReady_eq hne
    exact ⟨⟨_, rfl⟩, fun t ht => ⟨last, hret ▸ ht⟩⟩

theorem SchedStep.mono {pick pick' : Kernel → Kernel × Option Thread → Prop}
    (hpick : ∀ k fetched, pick k fetched → pick' k fetched) {rt : Runtime} {s s' : SchedSys}
    {c : SchedCall} (h : SchedStep pick rt s c s') : SchedStep pick' rt s c s' := by
  cases h with
  | createThread hcreate => exact .createThread hcreate
  | startThread hstart => exact .startThread hstart
  | destroy => exact .destroy
  | setCore => exact .setCore
  | run hfetched hrun => exact .run (hpick _ _ hfetched) hrun

/-! ## The threads -/

/-- Every thread is filed under its own uid, and the next uid is free. -/
structure Kernel.Owned (k : Kernel) : Prop where
  own : ∀ u t, k.getThread u = some t → t.uid = u
  below : ∀ u t, k.getThread u = some t → u < k.uidValue

/-- The thread that `start_thread` stores. -/
def Thread.started (t : Thread) (stack tls : Word) : Thread :=
  { t with
    context := t.startContext stack
    tlsLowAddress := tls
    status := SCE_THREAD_READY }

theorem Kernel.startThread_cases {k k' : Kernel} {maps maps' : List MemoryMap} {thid : SceUID}
    {argLen argPtr : Word} {ret : Int}
    (h : k.startThread maps thid argLen argPtr = .ok (k', maps', ret)) :
    k' = k ∨ ∃ t stack tls, k.getThread thid = some t ∧
      k' = k.setThread thid (t.started stack tls) := by
  unfold Kernel.startThread at h
  split at h
  · cases h
    exact .inl rfl
  · rename_i t ht
    split at h
    · cases h
    · cases h
      exact .inr ⟨t, _, _, ht, rfl⟩

/-- What `create_thread` does not touch. -/
theorem Kernel.createThread_frame {k k' : Kernel} {name : String}
    {entry stackSize attr option : Word} {initPriority : Int} {uid : SceUID}
    (h : k.createThread name entry initPriority stackSize attr option = .ok (k', uid)) :
    k'.threadList = k.threadList ++ [uid] ∧ k'.readyThreadsQueue = k.readyThreadsQueue ∧
      k'.currentCore = k.currentCore ∧ k'.currentThread = k.currentThread := by
  unfold Kernel.createThread Kernel.createKernelObject Kernel.generateUid at h
  split at h
  · cases h
  · cases h
    simp [Kernel.addUidToList, Thread.created]

theorem Kernel.getThread_destroyKernelObject (k : Kernel) (uid u : SceUID) :
    (k.destroyKernelObject uid).1.getThread u = if u = uid then none else k.getThread u := by
  unfold Kernel.getThread
  rw [Kernel.destroyKernelObject_kernelObjectMap]
  by_cases h : u = uid
  · subst h
    simp
  · simp [h]

theorem Kernel.destroyKernelObject_frame (k : Kernel) (uid : SceUID) :
    (k.destroyKernelObject uid).1.readyThreadsQueue = k.readyThreadsQueue ∧
      (k.destroyKernelObject uid).1.currentCore = k.currentCore ∧
      (k.destroyKernelObject uid).1.currentThread = k.currentThread := by
  unfold Kernel.destroyKernelObject Kernel.removeUidFromList
  split
  · exact ⟨rfl, rfl, rfl⟩
  · split <;> exact ⟨rfl, rfl, rfl⟩

theorem Kernel.mem_destroyKernelObject {k : Kernel} (h : k.Owned) {uid u : SceUID} (hne : u ≠ uid)
    (hu : u ∈ k.threadList) : u ∈ (k.destroyKernelObject uid).1.threadList := by
  unfold Kernel.destroyKernelObject Kernel.removeUidFromList
  cases ho : k.kernelObjectMap uid with
  | none => exact hu
  | some o =>
    cases o with
    | object _ => exact hu
    | thread t =>
      have huid : t.uid = uid := h.own uid t (Kernel.getThread_of_map ho)
      exact (List.mem_erase_of_ne (huid ▸ hne)).mpr hu

theorem Kernel.getThread_afterSlice (k : Kernel) (t : Thread) (exec : Execution) (u : SceUID) :
    (k.afterSlice t exec).getThread u =
      if u = t.uid then some (t.afterSlice exec) else k.getThread u := by
  unfold Kernel.afterSlice
  rw [Kernel.getThread_setThread]
  rfl

theorem Kernel.Owned.new : Kernel.new.Owned where
  own u t h := by
    rw [Kernel.getThread_new] at h
    cases h
  below u t h := by
    rw [Kernel.getThread_new] at h
    cases h

/-- A store to a thread in its place. -/
theorem Kernel.Owned.setThread {k : Kernel} (h : k.Owned) {uid : SceUID} {t t' : Thread}
    (ht : k.getThread uid = some t) (huid : t'.uid = uid) : (k.setThread uid t').Owned where
  own u t'' hu := by
    rw [Kernel.getThread_setThread] at hu
    split at hu
    · rename_i heq
      cases hu
      rw [huid, heq]
    · exact h.own u t'' hu
  below u t'' hu := by
    rw [Kernel.getThread_setThread] at hu
    rw [Kernel.setThread_uidValue]
    split at hu
    · rename_i heq
      exact heq ▸ h.below uid t ht
    · exact h.below u t'' hu

theorem Kernel.Owned.create {k k' : Kernel} (h : k.Owned) {name : String}
    {entry stackSize attr option : Word} {initPriority : Int} {uid : SceUID}
    (hcreate : k.createThread name entry initPriority stackSize attr option = .ok (k', uid)) :
    k'.Owned := by
  obtain ⟨huid, hvalue, hnew, hold⟩ := Kernel.createThread_ok hcreate
  constructor
  · intro u t hu
    by_cases heq : u = uid
    · rw [heq, hnew] at hu
      cases hu
      exact heq.symm
    · exact h.own u t (hold u heq ▸ hu)
  · intro u t hu
    rw [hvalue]
    by_cases heq : u = uid
    · rw [heq, huid]
      exact Int.lt_succ _
    · exact lt_trans (h.below u t (hold u heq ▸ hu)) (Int.lt_succ _)

theorem Kernel.Owned.destroy {k : Kernel} (h : k.Owned) (uid : SceUID) :
    (k.destroyKernelObject uid).1.Owned where
  own u t hu := by
    rw [Kernel.getThread_destroyKernelObject] at hu
    split at hu
    · cases hu
    · exact h.own u t hu
  below u t hu := by
    rw [Kernel.getThread_destroyKernelObject] at hu
    rw [Kernel.destroyKernelObject_uidValue]
    split at hu
    · cases hu
    · exact h.below u t hu

theorem Kernel.Owned.afterSlice {k : Kernel} (h : k.Owned) {t : Thread}
    (ht : k.getThread t.uid = some t) (exec : Execution) : (k.afterSlice t exec).Owned := by
  have hk : Kernel.Owned { k with
      currentThread := Function.update k.currentThread getAvailableCore (some t.uid)
      currentCore := 0 } := ⟨h.own, h.below⟩
  exact hk.setThread (t := t) ht rfl

/-- A run with any pick: nothing happens, or a live thread has its slice. -/
theorem SchedStep.run_cases {rt : Runtime} {s s' : SchedSys} {exec : Execution}
    {slice : Option Slice} (h : s.kernel.Owned)
    (hstep : SchedStep AnyPick rt s (.run exec slice) s') :
    ∃ queue, (slice = none ∧ s'.kernel = { s.kernel with readyThreadsQueue := queue }) ∨
      ∃ t, s.kernel.getThread t.uid = some t ∧ slice = some (t.slice exec) ∧
        s'.kernel = { s.kernel with readyThreadsQueue := queue }.afterSlice t exec := by
  cases hstep with
  | run hpick hrun =>
    obtain ⟨⟨queue, hqueue⟩, hlive⟩ := hpick
    refine ⟨queue, ?_⟩
    rcases Kernel.runFetched_cases hrun with ⟨-, rfl, rfl⟩ | ⟨t, hpicked, rfl, rfl⟩
    · exact .inl ⟨rfl, hqueue⟩
    · obtain ⟨uid, ht⟩ := hlive t hpicked
      have huid := h.own uid t ht
      subst huid
      exact .inr ⟨t, ht, rfl, by rw [hqueue]⟩

theorem SchedStep.owned {rt : Runtime} {s s' : SchedSys} {c : SchedCall} (h : s.kernel.Owned)
    (hstep : SchedStep AnyPick rt s c s') : s'.kernel.Owned := by
  cases c with
  | createThread =>
    cases hstep with
    | createThread hcreate => exact h.create hcreate
  | startThread =>
    cases hstep with
    | startThread hstart =>
      rcases Kernel.startThread_cases hstart with rfl | ⟨t, stack, tls, ht, rfl⟩
      · exact h
      · exact h.setThread ht (h.own _ t ht)
  | destroy =>
    cases hstep with
    | destroy => exact h.destroy _
  | setCore =>
    cases hstep with
    | setCore => exact ⟨h.own, h.below⟩
  | run exec slice =>
    have hqueued : ∀ queue, Kernel.Owned { s.kernel with readyThreadsQueue := queue } :=
      fun queue => ⟨h.own, h.below⟩
    obtain ⟨queue, ⟨-, hk⟩ | ⟨t, ht, -, hk⟩⟩ := SchedStep.run_cases h hstep
    · exact hk ▸ hqueued queue
    · exact hk ▸ (hqueued queue).afterSlice ht exec

end Betavita.Hle
