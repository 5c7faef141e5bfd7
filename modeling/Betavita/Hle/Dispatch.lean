import Betavita.Hle.Slice

/-!
# kernel.cpp — what is dispatched, and the current thread

The loop of `fetch_ready_thread` checks neither the status of an entry nor that the entry
is a fresh one. It need not: a refill takes live READY threads only, and the loop leaves
nothing behind of it, so that the queue is empty whenever a call begins.
-/

namespace Betavita.Hle

open Memory Processor Transition

/-- Between calls: the threads are filed under their uids and listed, none is RUNNING,
and the queue is empty. -/
structure Kernel.Idle (k : Kernel) : Prop where
  owned : k.Owned
  listed : ∀ u t, k.getThread u = some t → u ∈ k.threadList
  queue : k.readyThreadsQueue = []
  idle : ∀ u t, k.getThread u = some t → t.status ≠ SCE_THREAD_RUNNING

/-- Some thread can be dispatched. -/
def Kernel.HasReady (k : Kernel) : Prop :=
  ∃ u t, k.getThread u = some t ∧ t.status = SCE_THREAD_READY

theorem Kernel.mem_readyThreads {k : Kernel} (h : k.Owned) {u : SceUID}
    (hu : u ∈ k.readyThreads) : ∃ t, k.getThread u = some t ∧ t.status = SCE_THREAD_READY := by
  obtain ⟨i, -, hi⟩ := List.mem_filterMap.mp hu
  cases ht : k.getThread i with
  | none => simp [ht] at hi
  | some t =>
    simp only [ht, Option.ite_none_right_eq_some, Option.some.injEq] at hi
    obtain ⟨hready, rfl⟩ := hi
    rw [h.own i t ht]
    exact ⟨t, ht, hready⟩

theorem Kernel.Idle.readyThreads_eq_nil_iff {k : Kernel} (h : k.Idle) :
    k.readyThreads = [] ↔ ¬ k.HasReady := by
  constructor
  · rintro hnil ⟨u, t, ht, hready⟩
    have hmem : u ∈ k.readyThreads :=
      List.mem_filterMap.mpr ⟨u, h.listed u t ht, by simp [ht, hready, h.owned.own u t ht]⟩
    rw [hnil] at hmem
    cases hmem
  · intro hnone
    refine List.eq_nil_iff_forall_not_mem.mpr fun u hu => hnone ?_
    obtain ⟨t, ht⟩ := Kernel.mem_readyThreads h.owned hu
    exact ⟨u, t, ht⟩

/-- From an empty queue a live READY thread is fetched, if there is one, and the queue is
left empty. -/
theorem Kernel.Idle.fetch {k : Kernel} (h : k.Idle) :
    (¬ k.HasReady ∧ k.fetchReadyThread = (k, none)) ∨
      ∃ t, k.getThread t.uid = some t ∧ t.status = SCE_THREAD_READY ∧
        k.fetchReadyThread = (k, some t) := by
  have hrefilled : k.refilled = k.readyThreads := if_pos h.queue
  have hkeep : ({ k with readyThreadsQueue := [] } : Kernel) = k := by
    rw [← h.queue]
  rw [Kernel.fetchReadyThread_eq, hrefilled]
  split
  · rename_i hnil
    exact .inl ⟨h.readyThreads_eq_nil_iff.mp hnil, by rw [hkeep]⟩
  · rename_i hne
    obtain ⟨live, last, hqueue, -, hret, hstop⟩ := k.popReady_eq hne
    obtain ⟨t, ht, hready⟩ := Kernel.mem_readyThreads (u := last) h.owned (by
      rw [hqueue]
      simp)
    -- the last entry popped is live, so the loop ran to the end
    have hend : (k.popReady k.readyThreads).2 = [] := by
      refine hstop.resolve_right fun hdead => ?_
      rw [ht] at hdead
      cases hdead
    refine .inr ⟨t, ?_, hready, ?_⟩
    · rw [h.owned.own last t ht]
      exact ht
    · rw [hend, hkeep, hret, ht]

theorem Kernel.Idle.fetch_none {k kernel : Kernel} (h : k.Idle)
    (hfetch : k.fetchReadyThread = (kernel, none)) : kernel = k ∧ ¬ k.HasReady := by
  rcases h.fetch with ⟨hnone, hk⟩ | ⟨t, -, -, hk⟩
  · rw [hk] at hfetch
    cases hfetch
    exact ⟨rfl, hnone⟩
  · rw [hk] at hfetch
    cases hfetch

theorem Kernel.Idle.fetch_some {k kernel : Kernel} (h : k.Idle) {t : Thread}
    (hfetch : k.fetchReadyThread = (kernel, some t)) :
    kernel = k ∧ k.getThread t.uid = some t ∧ t.status = SCE_THREAD_READY := by
  rcases h.fetch with ⟨-, hk⟩ | ⟨t', ht, hready, hk⟩
  · rw [hk] at hfetch
    cases hfetch
  · rw [hk] at hfetch
    cases hfetch
    exact ⟨rfl, ht, hready⟩

theorem Kernel.Idle.new : Kernel.new.Idle where
  owned := .new
  listed u t h := by
    rw [Kernel.getThread_new] at h
    cases h
  queue := rfl
  idle u t h := by
    rw [Kernel.getThread_new] at h
    cases h

/-- A run from an idle kernel: nothing is READY and nothing happens, or a live READY
thread has its slice. -/
theorem SchedStep.run_idle {rt : Runtime} {s s' : SchedSys} {exec : Execution}
    {slice : Option Slice} (h : s.kernel.Idle)
    (hstep : SchedStep FetchPick rt s (.run exec slice) s') :
    (¬ s.kernel.HasReady ∧ slice = none ∧ s'.kernel = s.kernel) ∨
      ∃ t, s.kernel.getThread t.uid = some t ∧ t.status = SCE_THREAD_READY ∧
        slice = some (t.slice exec) ∧ s'.kernel = s.kernel.afterSlice t exec := by
  cases hstep with
  | run hpick hrun =>
    rw [hpick] at hrun
    rcases h.fetch with ⟨hnone, hfetch⟩ | ⟨t, ht, hready, hfetch⟩
    · rw [hfetch] at hrun
      cases hrun
      exact .inl ⟨hnone, rfl, rfl⟩
    · rw [hfetch, Kernel.runFetched_some] at hrun
      cases hrun
      exact .inr ⟨t, ht, hready, rfl, rfl⟩

/-- A store of a thread that is not RUNNING in its place. -/
theorem Kernel.Idle.setThread {k : Kernel} (h : k.Idle) {t t' : Thread} {uid : SceUID}
    (ht : k.getThread uid = some t) (huid : t'.uid = uid)
    (hstatus : t'.status ≠ SCE_THREAD_RUNNING) : (k.setThread uid t').Idle where
  owned := h.owned.setThread ht huid
  listed u t'' hu := by
    rw [Kernel.getThread_setThread] at hu
    split at hu
    · rename_i heq
      exact heq ▸ h.listed uid t ht
    · exact h.listed u t'' hu
  queue := h.queue
  idle u t'' hu := by
    rw [Kernel.getThread_setThread] at hu
    split at hu
    · cases hu
      exact hstatus
    · exact h.idle u t'' hu

theorem Kernel.Idle.create {k k' : Kernel} (h : k.Idle) {name : String}
    {entry stackSize attr option : Word} {initPriority : Int} {uid : SceUID}
    (hcreate : k.createThread name entry initPriority stackSize attr option = .ok (k', uid)) :
    k'.Idle := by
  obtain ⟨-, -, hnew, hold⟩ := Kernel.createThread_ok hcreate
  obtain ⟨hlist, hqueue, -, -⟩ := Kernel.createThread_frame hcreate
  refine ⟨h.owned.create hcreate, fun u t hu => ?_, hqueue.trans h.queue, fun u t hu => ?_⟩
  · rw [hlist, List.mem_append, List.mem_singleton]
    by_cases heq : u = uid
    · exact .inr heq
    · exact .inl (h.listed u t (hold u heq ▸ hu))
  · by_cases heq : u = uid
    · rw [heq, hnew] at hu
      cases hu
      show SCE_THREAD_STAGNANT ≠ SCE_THREAD_RUNNING
      decide
    · exact h.idle u t (hold u heq ▸ hu)

theorem Kernel.Idle.destroy {k : Kernel} (h : k.Idle) (uid : SceUID) :
    (k.destroyKernelObject uid).1.Idle where
  owned := h.owned.destroy uid
  listed u t hu := by
    rw [Kernel.getThread_destroyKernelObject] at hu
    split at hu
    · cases hu
    · rename_i hne
      exact Kernel.mem_destroyKernelObject h.owned hne (h.listed u t hu)
  queue := (Kernel.destroyKernelObject_frame k uid).1.trans h.queue
  idle u t hu := by
    rw [Kernel.getThread_destroyKernelObject] at hu
    split at hu
    · cases hu
    · exact h.idle u t hu

theorem SchedStep.idle {rt : Runtime} {s s' : SchedSys} {c : SchedCall} (h : s.kernel.Idle)
    (hstep : SchedStep FetchPick rt s c s') : s'.kernel.Idle := by
  cases c with
  | createThread =>
    cases hstep with
    | createThread hcreate => exact h.create hcreate
  | startThread =>
    cases hstep with
    | startThread hstart =>
      rcases Kernel.startThread_cases hstart with rfl | ⟨t, stack, tls, ht, rfl⟩
      · exact h
      · have hstatus : (t.started stack tls).status ≠ SCE_THREAD_RUNNING := by
          show SCE_THREAD_READY ≠ SCE_THREAD_RUNNING
          decide
        exact h.setThread ht (h.owned.own _ t ht) hstatus
  | destroy =>
    cases hstep with
    | destroy => exact h.destroy _
  | setCore =>
    cases hstep with
    | setCore => exact ⟨⟨h.owned.own, h.owned.below⟩, h.listed, h.queue, h.idle⟩
  | run exec slice =>
    rcases hstep.run_idle h with ⟨-, -, hk⟩ | ⟨t, ht, -, -, hk⟩
    · exact hk ▸ h
    · have hcore : Kernel.Idle { s.kernel with
          currentThread := Function.update s.kernel.currentThread 0 (some t.uid)
          currentCore := 0 } :=
        ⟨⟨h.owned.own, h.owned.below⟩, h.listed, h.queue, h.idle⟩
      have hstatus : (t.afterSlice exec).status ≠ SCE_THREAD_RUNNING := by
        show SCE_THREAD_READY ≠ SCE_THREAD_RUNNING
        decide
      rw [hk]
      exact hcore.setThread (t := t) ht rfl hstatus

theorem Steps.idle {rt : Runtime} {engine : RegisterFile} {maps : List MemoryMap}
    {calls : List SchedCall} {s : SchedSys}
    (hrun : Steps (SchedStep FetchPick rt) (.fresh engine maps) calls s) : s.kernel.Idle :=
  hrun.invariant (fun _ _ _ hinv hstep => hstep.idle hinv) .new

/-- After every run from a fresh kernel: no thread is RUNNING, and what the next
`run_single_thread_with_events` dispatches is live and READY. -/
theorem dispatch_discipline {rt : Runtime} {engine : RegisterFile} {maps : List MemoryMap}
    {calls : List SchedCall} {s : SchedSys}
    (hrun : Steps (SchedStep FetchPick rt) (.fresh engine maps) calls s) :
    (∀ u t, s.kernel.getThread u = some t → t.status ≠ SCE_THREAD_RUNNING) ∧
      ∀ (exec : Execution) (o : Slice),
        (s.kernel.runSingleThreadWithEvents rt s.engine exec).2.2 = some o →
        ∃ t, s.kernel.getThread o.uid = some t ∧ t.status = SCE_THREAD_READY := by
  have h := Steps.idle hrun
  refine ⟨h.idle, fun exec o ho => ?_⟩
  have hstep : SchedStep FetchPick rt s (.run exec (some o)) _ :=
    .run rfl (Prod.ext rfl (Prod.ext rfl ho))
  rcases hstep.run_idle h with ⟨-, hnone, -⟩ | ⟨t, ht, hready, hslice, -⟩
  · cases hnone
  · cases hslice
    exact ⟨t, ht, hready⟩

/-- A thread that was created and started is what is dispatched. -/
theorem dispatch_discipline_main :
    ∃ (s : SchedSys) (t : Thread),
      Steps (SchedStep FetchPick .new) (.fresh (fun _ => 0) [])
        [.createThread "main" 0x81000000#32 160 0x1000#32 0 0, .startThread 0x100 0 0] s ∧
      s.kernel.getThread 0x100 = some t ∧ t.status = SCE_THREAD_READY := by
  have hrun : Steps (SchedStep FetchPick .new) (.fresh (fun _ => 0) [])
      (([] ++ [.createThread "main" 0x81000000#32 160 0x1000#32 0 0]) ++
        [.startThread 0x100 0 0]) _ :=
    .snoc (.snoc .nil (.createThread rfl)) (.startThread rfl)
  obtain ⟨t, ht, hready⟩ := (dispatch_discipline hrun).2 ⟨fun _ engine => engine, [], id⟩ _ rfl
  exact ⟨_, t, hrun, ht, hready⟩

/-! ## The current thread -/

/-- `get_current_thread` stays inside its array and returns null or a live thread, and
the queue names live threads only. -/
def Kernel.CurrentThreadLive (k : Kernel) : Prop :=
  (∃ slot, k.getCurrentThread = .ok slot ∧ ∀ u, slot = some u → (k.getThread u).isSome) ∧
    ∀ u ∈ k.readyThreadsQueue, (k.getThread u).isSome

/-- A call and the state it begins in: it finds a thread to dispatch. -/
def Dispatches (e : SchedSys × SchedCall) : Prop :=
  (∃ exec slice, e.2 = .run exec slice) ∧ e.1.kernel.HasReady

def SetsCore (e : SchedSys × SchedCall) : Prop := e.2 = .setCore ∨ Dispatches e

/-- The thread in slot 0 is not destroyed, or another one is dispatched after that. -/
def NotStale (trace : List (SchedSys × SchedCall)) : Prop :=
  ∀ before after s uid, trace = before ++ (s, .destroy uid) :: after →
    s.kernel.currentThread getAvailableCore = some uid → ∃ e ∈ after, Dispatches e

theorem notStale_snoc {trace : List (SchedSys × SchedCall)} {e : SchedSys × SchedCall} :
    NotStale (trace ++ [e]) ↔ (¬ Dispatches e → NotStale trace) ∧
      ∀ uid, e.2 = .destroy uid → e.1.kernel.currentThread 0 ≠ some uid := by
  constructor
  · intro h
    constructor
    · rintro hnot before after s uid rfl hslot
      have hsplit : before ++ (s, SchedCall.destroy uid) :: after ++ [e] =
          before ++ (s, .destroy uid) :: (after ++ [e]) := by
        simp
      obtain ⟨d, hd, hdispatch⟩ := h _ _ _ _ hsplit hslot
      rcases List.mem_append.mp hd with hd | hd
      · exact ⟨d, hd, hdispatch⟩
      · rw [List.mem_singleton.mp hd] at hdispatch
        exact absurd hdispatch hnot
    · intro uid hcall hslot
      obtain ⟨s, c⟩ := e
      obtain rfl : c = .destroy uid := hcall
      obtain ⟨d, hd, -⟩ := h trace [] s uid rfl hslot
      cases hd
  · rintro ⟨hold, hlast⟩ before after s uid hsplit hslot
    rcases List.eq_nil_or_concat after with rfl | ⟨after, e', rfl⟩
    · obtain ⟨-, he⟩ := List.append_inj' hsplit rfl
      cases he
      exact absurd hslot (hlast uid rfl)
    · rw [List.concat_eq_append, ← List.cons_append, ← List.append_assoc] at hsplit
      obtain ⟨htrace, he⟩ := List.append_inj' hsplit rfl
      cases he
      by_cases hdispatch : Dispatches e
      · exact ⟨e, by simp, hdispatch⟩
      · obtain ⟨d, hd, hdis⟩ := hold hdispatch _ _ _ _ htrace hslot
        exact ⟨d, by simp [hd], hdis⟩

/-- What a run leaves in the core number and in slot 0. -/
structure CurrentThreadAfter (trace : List (SchedSys × SchedCall)) (k : Kernel) : Prop where
  idle : k.Idle
  core : k.currentCore = 0 ↔ ∃ e ∈ trace, SetsCore e
  unset : k.currentCore = 0 ∨ k.currentCore = -1
  below : ∀ u, k.currentThread 0 = some u → u < k.uidValue
  slot : (∀ u, k.currentThread 0 = some u → (k.getThread u).isSome) ↔ NotStale trace

/-- A call that neither sets the core nor destroys, and keeps the threads alive. -/
theorem CurrentThreadAfter.keep {trace : List (SchedSys × SchedCall)} {k k' : Kernel}
    (h : CurrentThreadAfter trace k) {e : SchedSys × SchedCall} (hidle : k'.Idle)
    (hcore : k'.currentCore = k.currentCore) (hslot : k'.currentThread = k.currentThread)
    (hvalue : k.uidValue ≤ k'.uidValue)
    (hlive : ∀ u, k.currentThread 0 = some u →
      ((k'.getThread u).isSome ↔ (k.getThread u).isSome))
    (hsets : ¬ SetsCore e)
    (hdestroy : ∀ uid, e.2 = .destroy uid → e.1.kernel.currentThread 0 ≠ some uid) :
    CurrentThreadAfter (trace ++ [e]) k' where
  idle := hidle
  core := by
    simp [hcore, h.core, hsets]
  unset := hcore ▸ h.unset
  below u hu := lt_of_lt_of_le (h.below u (hslot ▸ hu)) hvalue
  slot := by
    have hdispatch : ¬ Dispatches e := fun hd => hsets (.inr hd)
    rw [notStale_snoc, ← h.slot, hslot]
    constructor
    · intro hall
      exact ⟨fun _ u hu => (hlive u hu).mp (hall u hu), hdestroy⟩
    · intro hall u hu
      exact (hlive u hu).mpr (hall.1 hdispatch u hu)

theorem CurrentThreadAfter.destroyCurrent {trace : List (SchedSys × SchedCall)} {s : SchedSys}
    (h : CurrentThreadAfter trace s.kernel) {uid : SceUID}
    (hslot : s.kernel.currentThread 0 = some uid) :
    CurrentThreadAfter (trace ++ [(s, .destroy uid)]) (s.kernel.destroyKernelObject uid).1 := by
  obtain ⟨-, hcore, hcurrent⟩ := Kernel.destroyKernelObject_frame s.kernel uid
  refine ⟨h.idle.destroy uid, ?_, hcore ▸ h.unset, fun u hu => ?_, ?_⟩
  · have hsets : ¬ SetsCore (s, .destroy uid) := by simp [SetsCore, Dispatches]
    simp [hcore, h.core, hsets]
  · rw [Kernel.destroyKernelObject_uidValue]
    exact h.below u (hcurrent ▸ hu)
  · rw [notStale_snoc, hcurrent]
    constructor
    · intro hall
      have hdead := hall uid hslot
      simp [Kernel.getThread_destroyKernelObject] at hdead
    · intro hall
      exact absurd hslot (hall.2 uid rfl)

theorem CurrentThreadAfter.setCore {trace : List (SchedSys × SchedCall)} {s : SchedSys}
    (h : CurrentThreadAfter trace s.kernel) :
    CurrentThreadAfter (trace ++ [(s, .setCore)]) (s.kernel.setCore 0) where
  idle := ⟨⟨h.idle.owned.own, h.idle.owned.below⟩, h.idle.listed, h.idle.queue, h.idle.idle⟩
  core := by simp [Kernel.setCore, SetsCore]
  unset := .inl rfl
  below := h.below
  slot := by
    have hdispatch : ¬ Dispatches (s, .setCore) := by simp [Dispatches]
    rw [notStale_snoc, ← h.slot]
    simp [hdispatch, Kernel.setCore, Kernel.getThread]

/-- The slice of a thread puts it into slot 0. -/
theorem CurrentThreadAfter.dispatch {trace : List (SchedSys × SchedCall)} {s : SchedSys}
    (h : CurrentThreadAfter trace s.kernel) {exec : Execution} {slice : Option Slice} {t : Thread}
    (hidle : (s.kernel.afterSlice t exec).Idle) (ht : s.kernel.getThread t.uid = some t)
    (hready : t.status = SCE_THREAD_READY) :
    CurrentThreadAfter (trace ++ [(s, .run exec slice)]) (s.kernel.afterSlice t exec) := by
  have hdispatch : Dispatches (s, .run exec slice) := ⟨⟨exec, slice, rfl⟩, t.uid, t, ht, hready⟩
  have hslot : (s.kernel.afterSlice t exec).currentThread 0 = some t.uid := by
    simp [Kernel.afterSlice, Kernel.setThread, getAvailableCore]
  refine ⟨hidle, ?_, .inl rfl, fun u hu => ?_, ?_⟩
  · have hsets : ∃ e ∈ trace ++ [(s, SchedCall.run exec slice)], SetsCore e :=
      ⟨_, by simp, .inr hdispatch⟩
    exact iff_of_true rfl hsets
  · rw [hslot] at hu
    cases hu
    exact h.idle.owned.below t.uid t ht
  · rw [notStale_snoc]
    refine iff_of_true (fun u hu => ?_) ⟨fun hnot => absurd hdispatch hnot, by simp⟩
    rw [hslot] at hu
    cases hu
    rw [Kernel.getThread_afterSlice, if_pos rfl]
    rfl

theorem CurrentThreadAfter.step {rt : Runtime} {trace : List (SchedSys × SchedCall)}
    {s s' : SchedSys} {c : SchedCall} (h : CurrentThreadAfter trace s.kernel)
    (hstep : SchedStep FetchPick rt s c s') :
    CurrentThreadAfter (trace ++ [(s, c)]) s'.kernel := by
  have hidle := hstep.idle h.idle
  cases c with
  | createThread =>
    cases hstep with
    | createThread hcreate =>
      obtain ⟨huid, hvalue, -, hold⟩ := Kernel.createThread_ok hcreate
      obtain ⟨-, -, hcore, hslot⟩ := Kernel.createThread_frame hcreate
      refine h.keep hidle hcore hslot (by rw [hvalue]; exact Int.le_of_lt (Int.lt_succ _))
        (fun u hu => ?_) (by simp [SetsCore, Dispatches]) (by simp)
      have hne : u ≠ s.kernel.uidValue := ne_of_lt (h.below u hu)
      rw [hold u (huid ▸ hne)]
  | startThread thid =>
    cases hstep with
    | startThread hstart =>
      rcases Kernel.startThread_cases hstart with rfl | ⟨t, stack, tls, ht, rfl⟩
      · exact h.keep hidle rfl rfl le_rfl (fun u _ => Iff.rfl) (by simp [SetsCore, Dispatches])
          (by simp)
      · refine h.keep hidle rfl rfl le_rfl (fun u _ => ?_) (by simp [SetsCore, Dispatches])
          (by simp)
        rw [Kernel.getThread_setThread]
        by_cases heq : u = thid
        · rw [if_pos heq, heq, ht]
          rfl
        · rw [if_neg heq]
  | destroy uid =>
    cases hstep with
    | destroy =>
      by_cases hslot : s.kernel.currentThread 0 = some uid
      · exact h.destroyCurrent hslot
      · obtain ⟨-, hcore, hcurrent⟩ := Kernel.destroyKernelObject_frame s.kernel uid
        refine h.keep hidle hcore hcurrent (Kernel.destroyKernelObject_uidValue ..).ge
          (fun u hu => ?_) (by simp [SetsCore, Dispatches]) ?_
        · have hne : u ≠ uid := by
            rintro rfl
            exact hslot hu
          rw [Kernel.getThread_destroyKernelObject, if_neg hne]
        · rintro uid' heq
          cases heq
          exact hslot
  | setCore =>
    cases hstep with
    | setCore => exact h.setCore
  | run exec slice =>
    rcases hstep.run_idle h.idle with ⟨hnone, -, hk⟩ | ⟨t, ht, hready, -, hk⟩
    · rw [hk] at hidle ⊢
      exact h.keep hidle rfl rfl le_rfl (fun u _ => Iff.rfl)
        (by simp [SetsCore, Dispatches, hnone]) (by simp)
    · rw [hk] at hidle ⊢
      exact h.dispatch hidle ht hready

theorem CurrentThreadAfter.fresh : CurrentThreadAfter [] Kernel.new where
  idle := .new
  core := by simp [Kernel.new]
  unset := .inr rfl
  below := by simp [Kernel.new]
  slot := by simp [NotStale, Kernel.new]

theorem CurrentThreadAfter.live_iff {trace : List (SchedSys × SchedCall)} {k : Kernel}
    (h : CurrentThreadAfter trace k) :
    k.CurrentThreadLive ↔ (∃ e ∈ trace, SetsCore e) ∧ NotStale trace := by
  rw [← h.core, ← h.slot]
  constructor
  · rintro ⟨⟨slot, hget, hlive⟩, -⟩
    have hcore : k.currentCore = 0 := by
      refine h.unset.resolve_right fun hunset => ?_
      rw [Kernel.getCurrentThread, dif_neg (by omega)] at hget
      cases hget
    refine ⟨hcore, fun u hu => hlive u ?_⟩
    simp only [Kernel.getCurrentThread, hcore] at hget
    cases hget
    exact hu
  · rintro ⟨hcore, hlive⟩
    refine ⟨⟨k.currentThread 0, ?_, hlive⟩, by simp [h.idle.queue]⟩
    simp [Kernel.getCurrentThread, hcore]

/-- After a run from a fresh kernel the current thread can be asked for exactly when the
core was set, and the thread in slot 0 was not destroyed since it was dispatched. -/
theorem currentThread_live_iff {rt : Runtime} {engine : RegisterFile} {maps : List MemoryMap}
    {trace : List (SchedSys × SchedCall)} {s : SchedSys}
    (hrun : Steps (Traced (SchedStep FetchPick rt)) (.fresh engine maps) trace s) :
    s.kernel.CurrentThreadLive ↔
      (∃ e ∈ trace, SetsCore e) ∧
        ∀ before after s₁ uid, trace = before ++ (s₁, .destroy uid) :: after →
          s₁.kernel.currentThread 0 = some uid → ∃ e ∈ after, Dispatches e := by
  have h : CurrentThreadAfter trace s.kernel := by
    induction hrun with
    | nil => exact .fresh
    | @snoc s₁ s₂ calls e _ hlast ih =>
      obtain ⟨s₀, c⟩ := e
      obtain ⟨hbegin, hstep⟩ := hlast
      rw [show s₀ = s₁ from hbegin]
      exact ih.step hstep
  exact h.live_iff

/-- A run of the engine in which nothing happens. -/
def idleExecution : Execution := ⟨fun _ engine => engine, [], id⟩

/-- A thread is created, started and dispatched. -/
theorem main_dispatched :
    ∃ s₁ s₂ s₃ slice,
      SchedStep FetchPick .new (.fresh (fun _ => 0) [])
        (.createThread "main" 0x81000000#32 160 0x1000#32 0 0) s₁ ∧
      SchedStep FetchPick .new s₁ (.startThread 0x100 0 0) s₂ ∧
      SchedStep FetchPick .new s₂ (.run idleExecution slice) s₃ ∧
      s₂.kernel.HasReady ∧ s₃.kernel.currentCore = 0 ∧ s₃.kernel.currentThread 0 = some 0x100 :=
  ⟨_, _, _, _, .createThread rfl, .startThread rfl, .run rfl rfl, ⟨0x100, _, rfl, rfl⟩, rfl, rfl⟩

/-- The slot keeps a thread that was destroyed, and the slots cannot be indexed at all on
a fresh kernel. -/
theorem destroyKernelObject_leaves_current :
    (∃ slice s, Steps (SchedStep FetchPick .new) (.fresh (fun _ => 0) [])
        [.createThread "main" 0x81000000#32 160 0x1000#32 0 0, .startThread 0x100 0 0,
          .run idleExecution slice, .destroy 0x100] s ∧
      s.kernel.getCurrentThread = .ok (some 0x100) ∧ s.kernel.getThread 0x100 = none ∧
      ¬ s.kernel.CurrentThreadLive) ∧
    Kernel.new.getCurrentThread = .error .outOfBounds ∧ ¬ Kernel.new.CurrentThreadLive := by
  obtain ⟨s₁, s₂, s₃, slice, hcreate, hstart, hrun, -, hcore, hslot⟩ := main_dispatched
  obtain ⟨-, hcore', hslot'⟩ := Kernel.destroyKernelObject_frame s₃.kernel 0x100
  have hget : (s₃.kernel.destroyKernelObject 0x100).1.getCurrentThread = .ok (some 0x100) := by
    simp [Kernel.getCurrentThread, hcore', hcore, hslot', hslot]
  have hdead : (s₃.kernel.destroyKernelObject 0x100).1.getThread 0x100 = none := by
    rw [Kernel.getThread_destroyKernelObject, if_pos rfl]
  refine ⟨⟨slice, { s₃ with kernel := (s₃.kernel.destroyKernelObject 0x100).1 },
    .snoc (.snoc (.snoc (.snoc .nil hcreate) hstart) hrun) .destroy, hget, hdead, ?_⟩, rfl, ?_⟩
  · rintro ⟨⟨slot, hslot, hlive⟩, -⟩
    rw [hget] at hslot
    cases hslot
    have hsome := hlive 0x100 rfl
    rw [hdead] at hsome
    cases hsome
  · rintro ⟨⟨slot, hslot, -⟩, -⟩
    cases hslot

/-- Without the destruction the thread in the slot is live. -/
theorem currentThread_live_iff_main :
    ∃ trace s, Steps (Traced (SchedStep FetchPick .new)) (.fresh (fun _ => 0) []) trace s ∧
      s.kernel.currentThread 0 = some 0x100 ∧ s.kernel.CurrentThreadLive := by
  obtain ⟨s₁, s₂, s₃, slice, hcreate, hstart, hrun, hready, -, hslot⟩ := main_dispatched
  have hnil : Steps (Traced (SchedStep FetchPick .new)) (.fresh (fun _ => 0) []) [] _ := .nil
  have htrace := ((hnil.tracedSnoc hcreate).tracedSnoc hstart).tracedSnoc hrun
  refine ⟨_, s₃, htrace, hslot, (currentThread_live_iff htrace).mpr ⟨?_, ?_⟩⟩
  · exact ⟨(s₂, .run idleExecution slice), by simp, .inr ⟨⟨_, _, rfl⟩, hready⟩⟩
  · intro before after s uid hsplit
    have hmem : (s, SchedCall.destroy uid) ∈ before ++ (s, .destroy uid) :: after := by simp
    rw [← hsplit] at hmem
    simp at hmem

end Betavita.Hle
