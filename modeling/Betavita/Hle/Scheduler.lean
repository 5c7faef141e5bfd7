import Betavita.Hle.Kernel

/-!
# kernel.cpp — fetching the next ready thread

`fetch_ready_thread` refills an empty queue from the thread list and then pops
entries in a `do … while` loop. The loop is compared with the FIFO it should be.
-/

namespace Betavita.Hle

/-- The uids the refill pushes: the READY threads in thread list order. -/
def Kernel.readyThreads (k : Kernel) : List SceUID :=
  k.threadList.filterMap fun i =>
    match k.getThread i with
    | none => none
    | some thr => if thr.status = SCE_THREAD_READY then some thr.uid else none

/-- `do { … } while (ready_threads_queue.size() != 0 && t != nullptr)`: the last
pointer and what is left of the queue. The queue is not empty on entry. -/
def Kernel.popReady (k : Kernel) : List SceUID → Option Thread × List SceUID
  | [] => (none, [])
  | threadUid :: readyThreadsQueue =>
    let t := k.getThread threadUid
    if readyThreadsQueue.length ≠ 0 ∧ t.isSome then k.popReady readyThreadsQueue
    else (t, readyThreadsQueue)

/-- `fetch_ready_thread`. -/
def Kernel.fetchReadyThread (k : Kernel) : Kernel × Option Thread :=
  let k := if k.readyThreadsQueue.length = 0 then
    { k with readyThreadsQueue := k.readyThreadsQueue ++ k.readyThreads } else k
  if k.readyThreadsQueue.length = 0 then (k, none)
  else
    let (t, readyThreadsQueue) := k.popReady k.readyThreadsQueue
    ({ k with readyThreadsQueue := readyThreadsQueue }, t)

/-! ## The FIFO -/

/-- The queue after the refill. -/
def Kernel.refilled (k : Kernel) : List SceUID :=
  if k.readyThreadsQueue = [] then k.readyThreads else k.readyThreadsQueue

/-- The first entry that names a live thread is returned and the entries before it
are dropped with it; without such an entry nothing is returned, and all that is
dropped is dead. -/
inductive FifoFetch (k : Kernel) : Kernel × Option Thread → Prop
  | found {dead rest : List SceUID} {uid : SceUID} {t : Thread}
      (hqueue : k.refilled = dead ++ uid :: rest)
      (hdead : ∀ d ∈ dead, k.getThread d = none) (hlive : k.getThread uid = some t) :
      FifoFetch k ({ k with readyThreadsQueue := rest }, some t)
  | noneLive {taken rest : List SceUID} (hqueue : k.refilled = taken ++ rest)
      (hdead : ∀ d ∈ k.refilled, k.getThread d = none) :
      FifoFetch k ({ k with readyThreadsQueue := rest }, none)

/-- What the loop does: it drops live entries as long as others follow, and stops
at the first dead entry or at the end. -/
theorem Kernel.popReady_eq (k : Kernel) {queue : List SceUID} (hne : queue ≠ []) :
    ∃ live last, queue = live ++ last :: (k.popReady queue).2 ∧
      (∀ uid ∈ live, (k.getThread uid).isSome) ∧ (k.popReady queue).1 = k.getThread last ∧
      ((k.popReady queue).2 = [] ∨ k.getThread last = none) := by
  induction queue with
  | nil => exact absurd rfl hne
  | cons threadUid queue ih =>
    rw [Kernel.popReady]
    split
    · rename_i hloop
      obtain ⟨live, last, hqueue, hlive, hret, hstop⟩ :=
        ih (List.length_eq_zero_iff.not.mp hloop.1)
      refine ⟨threadUid :: live, last, by rw [List.cons_append, ← hqueue], ?_, hret, hstop⟩
      intro uid huid
      rcases List.mem_cons.mp huid with rfl | huid
      · exact hloop.2
      · exact hlive uid huid
    · rename_i hstop
      refine ⟨[], threadUid, rfl, by simp, rfl, ?_⟩
      by_cases hlast : queue = []
      · exact .inl hlast
      · refine .inr (Option.not_isSome_iff_eq_none.mp fun hsome => hstop ⟨?_, hsome⟩)
        exact List.length_eq_zero_iff.not.mpr hlast

theorem Kernel.fetchReadyThread_eq (k : Kernel) :
    k.fetchReadyThread =
      if k.refilled = [] then ({ k with readyThreadsQueue := [] }, none)
      else ({ k with readyThreadsQueue := (k.popReady k.refilled).2 },
        (k.popReady k.refilled).1) := by
  have hpop : ∀ (q queue : List SceUID),
      Kernel.popReady { k with readyThreadsQueue := q } queue = k.popReady queue := by
    intro q queue
    induction queue with
    | nil => rfl
    | cons uid queue ih =>
      rw [Kernel.popReady, Kernel.popReady, ih]
      rfl
  unfold Kernel.fetchReadyThread Kernel.refilled
  by_cases hq : k.readyThreadsQueue = []
  · by_cases hr : k.readyThreads = []
    · simp [hq, hr]
    · simp [hq, hr, hpop]
  · simp [hq]

/-- A queue of one entry is popped as a FIFO would. -/
theorem FifoFetch.single {k : Kernel} {uid : SceUID} (h : k.refilled = [uid]) :
    FifoFetch k k.fetchReadyThread := by
  have hfetch : k.fetchReadyThread =
      ({ k with readyThreadsQueue := [] }, k.getThread uid) := by
    rw [Kernel.fetchReadyThread_eq, if_neg (by simp [h]), h]
    simp [Kernel.popReady]
  rw [hfetch]
  cases hlive : k.getThread uid with
  | none =>
    have hqueue : k.refilled = [uid] ++ [] := h
    exact .noneLive hqueue (by simpa [h] using hlive)
  | some t =>
    have hqueue : k.refilled = [] ++ uid :: [] := h
    exact .found hqueue (by simp) hlive

/-- Without a live entry the loop drops one dead entry. -/
theorem FifoFetch.ofDead {k : Kernel} (hdead : ∀ uid ∈ k.refilled, k.getThread uid = none) :
    FifoFetch k k.fetchReadyThread := by
  rw [Kernel.fetchReadyThread_eq]
  split
  · rename_i hempty
    have hqueue : k.refilled = [] ++ [] := hempty
    exact .noneLive hqueue hdead
  · rename_i hne
    obtain ⟨live, last, hqueue, _, hret, _⟩ := k.popReady_eq hne
    have hlast : k.getThread last = none := hdead last (by rw [hqueue]; simp)
    rw [hret, hlast]
    have hsplit : k.refilled = (live ++ [last]) ++ (k.popReady k.refilled).2 := by
      rw [List.append_assoc]
      exact hqueue
    exact .noneLive hsplit hdead

/-- A live entry is lost as soon as the queue has two: the loop returns the first
live entry only if it is the last of all. -/
theorem FifoFetch.length_le {k : Kernel} (h : FifoFetch k k.fetchReadyThread) {uid : SceUID}
    (huid : uid ∈ k.refilled) (hlive : (k.getThread uid).isSome) : k.refilled.length ≤ 1 := by
  have hne : k.refilled ≠ [] := List.ne_nil_of_mem huid
  obtain ⟨live, last, hqueue, hall, hret, hstop⟩ := k.popReady_eq hne
  rw [Kernel.fetchReadyThread_eq, if_neg hne] at h
  generalize hres : (({ k with readyThreadsQueue := (k.popReady k.refilled).2 } : Kernel),
    (k.popReady k.refilled).1) = result at h
  cases h with
  | noneLive hq hdead =>
    rw [hdead uid huid] at hlive
    cases hlive
  | @found dead rest u t hq hdead hu =>
    simp only [Prod.mk.injEq, Kernel.mk.injEq] at hres
    obtain ⟨⟨-, -, -, hrest, -⟩, hsome⟩ := hres
    rw [hret] at hsome
    -- the returned entry is live, so the loop ran to the end of the queue
    have hend : (k.popReady k.refilled).2 = [] := by
      rcases hstop with hend | hdead
      · exact hend
      · rw [hdead] at hsome
        cases hsome
    rw [hend] at hqueue hrest
    rw [← hrest] at hq
    have hprefix : dead ++ [u] = live ++ [last] := hq ▸ hqueue
    obtain ⟨hdl, -⟩ := List.append_inj' hprefix rfl
    -- the entries before it are dead to the FIFO and live to the loop
    have hnil : live = [] := by
      cases hl : live with
      | nil => rfl
      | cons v vs =>
        have hv := hall v (by rw [hl]; simp)
        rw [hdead v (by rw [hdl, hl]; simp)] at hv
        cases hv
    rw [hqueue, hnil]
    simp

/-- The scheduler fetches first in, first out exactly when the refilled queue has at
most one entry or names no live thread. -/
theorem Kernel.fetchReadyThread_fifo_iff (k : Kernel) :
    FifoFetch k k.fetchReadyThread ↔
      k.refilled.length ≤ 1 ∨ ∀ uid ∈ k.refilled, k.getThread uid = none := by
  constructor
  · intro h
    by_cases hdead : ∀ uid ∈ k.refilled, k.getThread uid = none
    · exact .inr hdead
    · push Not at hdead
      obtain ⟨uid, huid, hlive⟩ := hdead
      exact .inl (h.length_le huid (Option.isSome_iff_ne_none.mpr hlive))
  · rintro (hlen | hdead)
    · cases hq : k.refilled with
      | nil => exact .ofDead (by simp [hq])
      | cons uid queue =>
        rw [hq, List.length_cons] at hlen
        have hnil : queue = [] := List.length_eq_zero_iff.mp (by omega)
        exact .single (by rw [hq, hnil])
    · exact .ofDead hdead

/-- A kernel with two READY threads. -/
def twoReadyThreads : Kernel :=
  let thread (uid : SceUID) : Thread :=
    { uid := uid, processId := 0, name := "worker", attr := 0, status := SCE_THREAD_READY,
      entryPoint := 0, stackAddress := 0, stackSize := 0x1000#32, initPriority := 32,
      currentPriority := 32, waitType := SCE_WAIT_TYPE_NONE, waitID := 0,
      tlsLowAddress := 0, context := ⟨fun _ => 0, 0⟩ }
  let k := (Kernel.new.setThread 0x100 (thread 0x100)).setThread 0x101 (thread 0x101)
  { k with uidValue := 0x102, threadList := [0x100, 0x101] }

/-- The first of two READY threads is dropped and the second returned. -/
theorem fetchReadyThread_drops_first :
    twoReadyThreads.refilled = [0x100, 0x101] ∧
      (twoReadyThreads.fetchReadyThread.2).map Thread.uid = some 0x101 ∧
      twoReadyThreads.fetchReadyThread.1.readyThreadsQueue = [] ∧
      ¬ FifoFetch twoReadyThreads twoReadyThreads.fetchReadyThread := by
  have hqueue : twoReadyThreads.refilled = [0x100, 0x101] := by decide
  refine ⟨hqueue, by decide, by decide, fun h => ?_⟩
  have hmem : 0x100 ∈ twoReadyThreads.refilled := by rw [hqueue]; simp
  have hlen := h.length_le hmem (by decide)
  rw [hqueue] at hlen
  simp at hlen

end Betavita.Hle
