import Betavita.Hle.Emulator
import Betavita.Hle.Isolation

/-!
# kernel.cpp — whose slice it is

The loop of `fetch_ready_thread` drops every live entry that another one follows, so a
refilled queue yields its last thread. A slice ends with its thread READY again, and uids
only grow. Hence the calls that create, start and destroy threads settle which one runs:
the youngest that was started, for as long as it lives.
-/

namespace Betavita.Hle

open Memory Processor Transition

/-- What the calls so far say of the threads: the uid of the next one, those that live,
and those of them that were started. -/
structure Roster where
  next : SceUID
  live : Set SceUID
  started : Set SceUID

def Roster.fresh : Roster := ⟨0x100, ∅, ∅⟩

def Roster.call (r : Roster) : EmuCall → Roster
  | .createThread .. => { r with next := r.next + 1, live := insert r.next r.live }
  | .startThread thid _ _ => { r with started := r.started ∪ ({thid} ∩ r.live) }
  | .destroy uid => { r with live := r.live \ {uid}, started := r.started \ {uid} }
  | .run .. => r

/-- The roster after these calls. -/
def Roster.after (calls : List EmuCall) : Roster := calls.foldl Roster.call .fresh

theorem Roster.after_snoc (calls : List EmuCall) (c : EmuCall) :
    Roster.after (calls ++ [c]) = (Roster.after calls).call c := by
  simp [Roster.after]

/-- A thread that was started is one until it is destroyed. -/
theorem Roster.started_foldl {r : Roster} {v : SceUID} (hv : v ∈ r.started)
    {calls : List EmuCall} (hlives : EmuCall.destroy v ∉ calls) :
    v ∈ (calls.foldl Roster.call r).started := by
  induction calls generalizing r with
  | nil => exact hv
  | cons c calls ih =>
    obtain ⟨hc, hcalls⟩ := List.ne_and_not_mem_of_not_mem_cons hlives
    apply ih _ hcalls
    cases c with
    | createThread => exact hv
    | startThread => exact .inl hv
    | destroy uid =>
      refine ⟨hv, fun heq => hc ?_⟩
      rw [Set.mem_singleton_iff.mp heq]
    | run => exact hv

/-! ## The thread that is fetched -/

theorem Kernel.mem_readyThreads_iff {k : Kernel} (h : k.Idle) {u : SceUID} :
    u ∈ k.readyThreads ↔ ∃ t, k.getThread u = some t ∧ t.status = SCE_THREAD_READY := by
  constructor
  · exact Kernel.mem_readyThreads h.owned
  · rintro ⟨t, ht, hready⟩
    apply List.mem_filterMap.mpr
    exact ⟨u, h.listed u t ht, by simp [ht, hready, h.owned.own u t ht]⟩

/-- The refill keeps the order of the thread list. -/
theorem Kernel.readyThreads_sublist {k : Kernel} (h : k.Owned) :
    k.readyThreads.Sublist k.threadList := by
  unfold Kernel.readyThreads
  induction k.threadList with
  | nil => exact .slnil
  | cons i uids ih =>
    rw [List.filterMap_cons]
    split
    · exact ih.cons i
    · rename_i u hu
      have huid : u = i := by
        cases ht : k.getThread i with
        | none => simp [ht] at hu
        | some t =>
          simp only [ht, Option.ite_none_right_eq_some, Option.some.injEq] at hu
          rw [← hu.2, h.own i t ht]
      rw [huid]
      exact ih.cons_cons i

/-- With the thread list in ascending order the youngest READY thread is fetched. -/
theorem Kernel.Idle.fetch_youngest {k : Kernel} (h : k.Idle)
    (hasc : k.threadList.Pairwise (· < ·)) {kernel : Kernel} {t : Thread}
    (hfetch : k.fetchReadyThread = (kernel, some t)) {u : SceUID} {t' : Thread}
    (ht' : k.getThread u = some t') (hready : t'.status = SCE_THREAD_READY) : u ≤ t.uid := by
  have hrefilled : k.refilled = k.readyThreads := if_pos h.queue
  have hmem : u ∈ k.readyThreads := (Kernel.mem_readyThreads_iff h).mpr ⟨t', ht', hready⟩
  have hne : k.readyThreads ≠ [] := List.ne_nil_of_mem hmem
  obtain ⟨live, last, hqueue, -, hret, hstop⟩ := k.popReady_eq hne
  rw [Kernel.fetchReadyThread_eq, hrefilled, if_neg hne] at hfetch
  obtain ⟨-, hsome⟩ := Prod.ext_iff.mp hfetch
  have hlast : k.getThread last = some t := hret.symm.trans hsome
  have hend : (k.popReady k.readyThreads).2 = [] :=
    hstop.resolve_right fun hdead => by simp [hdead] at hlast
  have huid : t.uid = last := h.owned.own last t hlast
  rw [hend] at hqueue
  have hsorted : (live ++ [last]).Pairwise (· < ·) :=
    hqueue ▸ hasc.sublist (Kernel.readyThreads_sublist h.owned)
  rw [hqueue] at hmem
  rw [huid]
  rcases List.mem_append.mp hmem with hu | hu
  · exact le_of_lt ((List.pairwise_append.mp hsorted).2.2 u hu last (by simp))
  · exact le_of_eq (List.mem_singleton.mp hu)

/-! ## The kernel keeps the roster -/

/-- The tables of the kernel between two calls, against the roster. -/
structure Kernel.Keeps (k : Kernel) (r : Roster) : Prop where
  idle : k.Idle
  ascending : k.threadList.Pairwise (· < ·)
  issued : ∀ u ∈ k.threadList, u < k.uidValue
  next : k.uidValue = r.next
  live : ∀ u, u ∈ r.live ↔ (k.getThread u).isSome
  started : ∀ u, u ∈ r.started ↔ ∃ t, k.getThread u = some t ∧ t.status = SCE_THREAD_READY

theorem Kernel.Keeps.new : Kernel.new.Keeps .fresh where
  idle := .new
  ascending := .nil
  issued u hu := by cases hu
  next := rfl
  live u := by simp [Roster.fresh, Kernel.getThread_new]
  started u := by simp [Roster.fresh, Kernel.getThread_new]

theorem Kernel.Keeps.create {k k' : Kernel} {r : Roster} (h : k.Keeps r) {name : String}
    {entry stackSize attr option : Word} {initPriority : Int} {uid : SceUID}
    (hcreate : k.createThread name entry initPriority stackSize attr option = .ok (k', uid)) :
    k'.Keeps (r.call (.createThread name entry initPriority stackSize attr option)) := by
  obtain ⟨huid, hvalue, hnew, hold⟩ := Kernel.createThread_ok hcreate
  obtain ⟨hlist, -, -, -⟩ := Kernel.createThread_frame hcreate
  constructor
  case idle => exact h.idle.create hcreate
  case ascending =>
    rw [hlist, List.pairwise_append]
    refine ⟨h.ascending, List.pairwise_singleton _ _, fun u hu v hv => ?_⟩
    rw [List.mem_singleton.mp hv, huid]
    exact h.issued u hu
  case issued =>
    intro u hu
    rw [hvalue]
    rw [hlist] at hu
    rcases List.mem_append.mp hu with hu | hu
    · exact lt_trans (h.issued u hu) (Int.lt_succ _)
    · rw [List.mem_singleton.mp hu, huid]
      exact Int.lt_succ _
  case next =>
    show k'.uidValue = r.next + 1
    rw [hvalue, h.next]
  case live =>
    intro u
    show u ∈ insert r.next r.live ↔ _
    rw [Set.mem_insert_iff, ← h.next, ← huid]
    by_cases hu : u = uid
    · simp [hu, hnew]
    · simp [hu, hold u hu, h.live]
  case started =>
    intro u
    show u ∈ r.started ↔ _
    rw [h.started]
    by_cases hu : u = uid
    · -- the new thread is STAGNANT, and its uid was free
      have hfree : k.getThread u = none := by
        cases ht : k.getThread u with
        | none => rfl
        | some t =>
          have hlt := h.idle.owned.below u t ht
          rw [hu, huid] at hlt
          exact absurd hlt (lt_irrefl _)
      have hstagnant : SCE_THREAD_STAGNANT ≠ SCE_THREAD_READY := by decide
      rw [hfree, hu, hnew]
      simp [Thread.created, hstagnant]
    · rw [hold u hu]

/-- A store that leaves a thread READY and the list alone. -/
theorem Kernel.Keeps.setThread {k : Kernel} {r : Roster} (h : k.Keeps r) {t t' : Thread}
    {uid : SceUID} (ht : k.getThread uid = some t) (huid : t'.uid = uid)
    (hready : t'.status = SCE_THREAD_READY) :
    (k.setThread uid t').Keeps { r with started := insert uid r.started } where
  idle := by
    apply h.idle.setThread ht huid
    rw [hready]
    decide
  ascending := h.ascending
  issued := h.issued
  next := h.next
  live u := by
    show u ∈ r.live ↔ _
    rw [h.live, Kernel.getThread_setThread]
    split
    · rename_i hu
      simp [hu, ht]
    · rfl
  started u := by
    rw [Set.mem_insert_iff, Kernel.getThread_setThread]
    split
    · rename_i hu
      simp [hu, hready]
    · rename_i hu
      rw [← h.started]
      simp [hu]

theorem Kernel.Keeps.start {k k' : Kernel} {r : Roster} (h : k.Keeps r)
    {maps maps' : List MemoryMap} {thid : SceUID} {argLen argPtr : Word} {ret : Int}
    (hstart : k.startThread maps thid argLen argPtr = .ok (k', maps', ret)) :
    k'.Keeps (r.call (.startThread thid argLen argPtr)) := by
  cases ht : k.getThread thid with
  | none =>
    simp only [Kernel.startThread, ht] at hstart
    cases hstart
    have hdead : {thid} ∩ r.live = ∅ := by
      ext u
      simp only [Set.mem_inter_iff, Set.mem_singleton_iff, h.live, Set.mem_empty_iff_false,
        iff_false]
      rintro ⟨rfl, hlive⟩
      simp [ht] at hlive
    show k.Keeps { r with started := r.started ∪ ({thid} ∩ r.live) }
    rw [hdead, Set.union_empty]
    exact h
  | some t =>
    have hlive : {thid} ∩ r.live = {thid} := by
      apply Set.inter_eq_left.mpr
      rintro u rfl
      simp [h.live, ht]
    show k'.Keeps { r with started := r.started ∪ ({thid} ∩ r.live) }
    rw [hlive, Set.union_singleton]
    unfold Kernel.startThread at hstart
    simp only [ht] at hstart
    split at hstart
    · cases hstart
    · cases hstart
      exact h.setThread ht (h.idle.owned.own _ t ht) rfl

theorem Kernel.destroyKernelObject_sublist (k : Kernel) (uid : SceUID) :
    (k.destroyKernelObject uid).1.threadList.Sublist k.threadList := by
  unfold Kernel.destroyKernelObject Kernel.removeUidFromList
  split
  · exact .refl _
  · split
    · exact List.erase_sublist
    · exact .refl _

theorem Kernel.Keeps.destroy {k : Kernel} {r : Roster} (h : k.Keeps r) (uid : SceUID) :
    (k.destroyKernelObject uid).1.Keeps (r.call (.destroy uid)) where
  idle := h.idle.destroy uid
  ascending := h.ascending.sublist (k.destroyKernelObject_sublist uid)
  issued u hu := by
    rw [Kernel.destroyKernelObject_uidValue]
    exact h.issued u ((k.destroyKernelObject_sublist uid).subset hu)
  next := (Kernel.destroyKernelObject_uidValue k uid).trans h.next
  live u := by
    show u ∈ r.live \ {uid} ↔ _
    rw [Set.mem_sdiff, Set.mem_singleton_iff, h.live, Kernel.getThread_destroyKernelObject]
    by_cases hu : u = uid
    · simp [hu]
    · simp [hu]
  started u := by
    show u ∈ r.started \ {uid} ↔ _
    rw [Set.mem_sdiff, Set.mem_singleton_iff, h.started, Kernel.getThread_destroyKernelObject]
    by_cases hu : u = uid
    · simp [hu]
    · simp [hu]

/-- A slice ends with its thread READY, as it was. -/
theorem Kernel.Keeps.afterSlice {k : Kernel} {r : Roster} (h : k.Keeps r) {t : Thread}
    (ht : k.getThread t.uid = some t) (hready : t.status = SCE_THREAD_READY) (exec : Execution) :
    (k.afterSlice t exec).Keeps r := by
  have hcore : Kernel.Keeps { k with
      currentThread := Function.update k.currentThread getAvailableCore (some t.uid)
      currentCore := 0 } r :=
    ⟨⟨⟨h.idle.owned.own, h.idle.owned.below⟩, h.idle.listed, h.idle.queue, h.idle.idle⟩,
      h.ascending, h.issued, h.next, h.live, h.started⟩
  have hstarted : t.uid ∈ r.started := (h.started _).mpr ⟨t, ht, hready⟩
  have hkeep : (k.afterSlice t exec).Keeps { r with started := insert t.uid r.started } :=
    hcore.setThread (t := t) ht rfl rfl
  rwa [Set.insert_eq_of_mem hstarted] at hkeep

theorem EmuStep.keeps {rt : Runtime} {m m' : Machine} {c : EmuCall} {r : Roster}
    (h : m.hle.kernel.Keeps r) (hstep : EmuStep (GuestStep rt) m c m') :
    m'.hle.kernel.Keeps (r.call c) := by
  cases hstep with
  | createThread hcreate => exact h.create hcreate
  | startThread hstart => exact h.start hstart
  | destroy => exact h.destroy _
  | idle hfetch =>
    obtain ⟨rfl, -⟩ := h.idle.fetch_none hfetch
    exact h
  | run hfetch hguest hend =>
    obtain ⟨rfl, ht, hready⟩ := h.idle.fetch_some hfetch
    rw [Machine.endSlice_eq hguest] at hend
    cases hend
    exact h.afterSlice ht hready _

theorem Steps.keeps {rt : Runtime} {display : Display} {maps : List MemoryMap}
    {engine : RegisterFile} {calls : List EmuCall} {m : Machine}
    (hrun : Steps (EmuStep (GuestStep rt)) (.fresh display maps engine) calls m) :
    m.hle.kernel.Keeps (.after calls) := by
  induction hrun with
  | nil => exact .new
  | snoc _ hlast ih =>
    rw [Roster.after_snoc]
    exact hlast.keeps ih

/-! ## The schedule -/

/-- The slice is that of the youngest thread that was started, if there is one. -/
def Roster.Dispatches (r : Roster) : Option Slice → Prop
  | none => r.started = ∅
  | some slice => IsGreatest r.started slice.uid

theorem EmuStep.dispatches {rt : Runtime} {m m' : Machine} {events : List GuestEvent}
    {slice : Option Slice} {r : Roster} (h : m.hle.kernel.Keeps r)
    (hstep : EmuStep (GuestStep rt) m (.run events slice) m') : r.Dispatches slice := by
  cases hstep with
  | idle hfetch =>
    obtain ⟨-, hnone⟩ := h.idle.fetch_none hfetch
    apply Set.eq_empty_of_forall_notMem
    intro u hu
    obtain ⟨t, ht⟩ := (h.started u).mp hu
    exact hnone ⟨u, t, ht⟩
  | @run _ _ _ t _ hfetch hguest hend =>
    obtain ⟨-, ht, hready⟩ := h.idle.fetch_some hfetch
    constructor
    · exact (h.started _).mpr ⟨t, ht, hready⟩
    · intro u hu
      obtain ⟨t', ht', hready'⟩ := (h.started u).mp hu
      exact h.idle.fetch_youngest h.ascending hfetch ht' hready'

/-- In every run of the emulator, whatever the guest does in its slices: a slice is that of
the youngest thread that was started and lives, and there is none without such a thread. -/
theorem youngest_dispatched {rt : Runtime} {display : Display} {maps : List MemoryMap}
    {engine : RegisterFile} {before after : List EmuCall} {events : List GuestEvent}
    {slice : Option Slice} {m : Machine}
    (hrun : Steps (EmuStep (GuestStep rt)) (.fresh display maps engine)
      (before ++ .run events slice :: after) m) :
    (Roster.after before).Dispatches slice := by
  obtain ⟨m₁, m₂, hbefore, hstep, -⟩ := hrun.at
  exact hstep.dispatches (Steps.keeps hbefore)

/-- Two threads, both started. -/
def twoStarted : List EmuCall :=
  [.createThread "first" 0x81000000#32 160 0x1000#32 0 0,
    .createThread "second" 0x81000000#32 160 0x1000#32 0 0,
    .startThread 0x100 0 0, .startThread 0x101 0 0]

theorem twoStarted_run :
    ∃ (m m' : Machine) (slice : Slice),
      Steps (EmuStep (GuestStep .new)) (.fresh noDisplay [] fun _ => 0) twoStarted m ∧
        EmuStep (GuestStep .new) m (.run [] (some slice)) m' := by
  obtain ⟨m, hrun, kernel, t, hfetch⟩ : ∃ m,
      Steps (EmuStep (GuestStep .new)) (.fresh noDisplay [] fun _ => 0)
        (((([] ++ [.createThread "first" 0x81000000#32 160 0x1000#32 0 0]) ++
          [.createThread "second" 0x81000000#32 160 0x1000#32 0 0]) ++
          [.startThread 0x100 0 0]) ++ [.startThread 0x101 0 0]) m ∧
        ∃ kernel t, m.hle.kernel.fetchReadyThread = (kernel, some t) :=
    ⟨_, .snoc (.snoc (.snoc (.snoc .nil (.createThread rfl)) (.createThread rfl))
      (.startThread rfl)) (.startThread rfl), _, _, rfl⟩
  have hguest : Steps (GuestStep .new) (m.beginSlice kernel t) [] (m.beginSlice kernel t) := .nil
  exact ⟨m, _, _, hrun, .run hfetch hguest (Machine.endSlice_eq hguest)⟩

theorem twoStarted_started : (Roster.after twoStarted).started = {0x100, 0x101} := by
  ext u
  simp [twoStarted, Roster.after, Roster.call, Roster.fresh, or_comm]

/-- Of the two threads it is the second that runs. -/
theorem youngest_dispatched_two :
    ∃ (m : Machine) (slice : Slice),
      Steps (EmuStep (GuestStep .new)) (.fresh noDisplay [] fun _ => 0)
        (twoStarted ++ [.run [] (some slice)]) m ∧ slice.uid = 0x101 := by
  obtain ⟨m, m', slice, hrun, hstep⟩ := twoStarted_run
  have hlast := hrun.snoc hstep
  have hgreatest : IsGreatest (Roster.after twoStarted).started slice.uid :=
    youngest_dispatched hlast
  rw [twoStarted_started] at hgreatest
  have hle : 0x101 ≤ slice.uid := hgreatest.2 (by simp)
  refine ⟨m', slice, hlast, ?_⟩
  rcases hgreatest.1 with huid | huid
  · rw [huid] at hle
    exact absurd hle (by decide)
  · exact huid

/-- The call starts, destroys or runs this thread. -/
def EmuCall.On (uid : SceUID) : EmuCall → Prop
  | .startThread thid _ _ => thid = uid
  | .destroy u => u = uid
  | .run _ (some slice) => slice.uid = uid
  | _ => False

theorem EmuCall.Shows.on_iff {c : EmuCall} {c' : SchedCall} (h : c.Shows c') (uid : SceUID) :
    c'.On uid ↔ c.On uid := by
  cases h with
  | createThread => rfl
  | startThread => rfl
  | destroy => rfl
  | @run _ slice _ _ =>
    cases slice with
    | none => rfl
    | some slice => rfl

theorem Steps.emuFrame {rt : Runtime} {m m' : Machine} {calls : List EmuCall} {uid : SceUID}
    {t : Thread} (h : m.hle.kernel.Owned) (hrun : Steps (EmuStep (GuestStep rt)) m calls m')
    (hother : ∀ c ∈ calls, ¬ c.On uid) (ht : m.hle.kernel.getThread uid = some t) :
    m'.hle.kernel.getThread uid = some t ∧ m'.hle.kernel.Owned := by
  induction hrun with
  | nil => exact ⟨ht, h⟩
  | snoc _ hlast ih =>
    obtain ⟨hbefore, howned⟩ := ih fun c hc => hother c (List.mem_append_left _ hc)
    obtain ⟨c', hshow, hstep⟩ := hlast.sched
    have hany := hstep.mono fun _ _ hpick => FetchPick.any hpick
    have hnot : ¬ c'.On uid := (hshow.on_iff uid).not.mpr (hother _ (by simp))
    exact ⟨hany.frame howned hnot hbefore, hany.owned howned⟩

/-- A thread starves while a younger one that was started lives: all slices are those of the
younger one or of still younger ones, and unless it is started again or destroyed the
thread stays as it is, its registers included. -/
theorem older_starves {rt : Runtime} {display : Display} {maps : List MemoryMap}
    {engine : RegisterFile} {before later : List EmuCall} {m m' : Machine}
    (hbefore : Steps (EmuStep (GuestStep rt)) (.fresh display maps engine) before m)
    (hlater : Steps (EmuStep (GuestStep rt)) m later m') {u v : SceUID}
    (hu : u ∈ (Roster.after before).started) (hv : v ∈ (Roster.after before).started)
    (huv : u < v) (hlives : EmuCall.destroy v ∉ later) :
    (∀ events slice, EmuCall.run events slice ∈ later → ∃ s, slice = some s ∧ v ≤ s.uid) ∧
      ((∀ argLen argPtr, EmuCall.startThread u argLen argPtr ∉ later) →
        EmuCall.destroy u ∉ later →
        ∃ t, m.hle.kernel.getThread u = some t ∧ m'.hle.kernel.getThread u = some t) := by
  have hslices : ∀ events slice, EmuCall.run events slice ∈ later →
      ∃ s, slice = some s ∧ v ≤ s.uid := by
    intro events slice hmem
    obtain ⟨first, rest, rfl⟩ := List.append_of_mem hmem
    obtain ⟨m₁, m₂, hfirst, hstep, -⟩ := hlater.at
    have hstill : v ∈ (Roster.after (before ++ first)).started := by
      rw [Roster.after, List.foldl_append]
      exact Roster.started_foldl hv fun hin => hlives (List.mem_append_left _ hin)
    have hdispatch := hstep.dispatches (Steps.keeps (hbefore.append hfirst))
    cases slice with
    | none =>
      have hnone : (Roster.after (before ++ first)).started = ∅ := hdispatch
      rw [hnone] at hstill
      cases hstill
    | some s => exact ⟨s, rfl, hdispatch.2 hstill⟩
  refine ⟨hslices, fun hstart hdestroy => ?_⟩
  have hkeeps := Steps.keeps hbefore
  obtain ⟨t, ht, -⟩ := (hkeeps.started u).mp hu
  have hother : ∀ c ∈ later, ¬ c.On u := by
    rintro c hc hon
    cases c with
    | createThread => exact hon
    | startThread thid argLen argPtr =>
      obtain rfl : thid = u := hon
      exact hstart argLen argPtr hc
    | destroy uid =>
      obtain rfl : uid = u := hon
      exact hdestroy hc
    | run events slice =>
      obtain ⟨s, rfl, hle⟩ := hslices events slice hc
      have huid : s.uid = u := hon
      rw [huid] at hle
      exact absurd huv (not_lt.mpr hle)
  exact ⟨t, ht, (Steps.emuFrame hkeeps.idle.owned hlater hother ht).1⟩

/-- The first of the two threads waits for good. -/
theorem older_starves_two :
    ∃ (m m' : Machine) (slice : Slice) (t : Thread),
      Steps (EmuStep (GuestStep .new)) (.fresh noDisplay [] fun _ => 0) twoStarted m ∧
        EmuStep (GuestStep .new) m (.run [] (some slice)) m' ∧ 0x101 ≤ slice.uid ∧
        m.hle.kernel.getThread 0x100 = some t ∧ m'.hle.kernel.getThread 0x100 = some t := by
  obtain ⟨m, m', slice, hrun, hstep⟩ := twoStarted_run
  have hfirst : (0x100 : SceUID) ∈ (Roster.after twoStarted).started := by
    simp [twoStarted_started]
  have hsecond : (0x101 : SceUID) ∈ (Roster.after twoStarted).started := by
    simp [twoStarted_started]
  obtain ⟨hslices, hkeep⟩ := older_starves hrun (.snoc .nil hstep) hfirst hsecond (by decide)
    (by simp)
  obtain ⟨s, hs, hle⟩ := hslices [] (some slice) (by simp)
  cases hs
  obtain ⟨t, ht, ht'⟩ := hkeep (by simp) (by simp)
  exact ⟨m, m', slice, t, hrun, hstep, hle, ht, ht'⟩

end Betavita.Hle
