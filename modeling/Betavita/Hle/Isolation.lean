import Betavita.Hle.Slice

/-!
# kernel.cpp — register contexts between slices

A thread begins each slice with the registers with which its previous one ended,
whatever threads ran in between: only its own slices and its own start write to its
context, and saving and restoring are inverse for every register.
-/

namespace Betavita.Hle

open Memory Processor Transition

/-- The call starts, destroys or runs this thread. -/
def SchedCall.On (uid : SceUID) : SchedCall → Prop
  | .startThread thid _ _ => thid = uid
  | .destroy u => u = uid
  | .run _ (some slice) => slice.uid = uid
  | _ => False

/-- Other calls leave a thread as it is. -/
theorem SchedStep.frame {rt : Runtime} {s s' : SchedSys} {c : SchedCall} {uid : SceUID}
    {t : Thread} (h : s.kernel.Owned) (hstep : SchedStep AnyPick rt s c s')
    (hother : ¬ c.On uid) (ht : s.kernel.getThread uid = some t) :
    s'.kernel.getThread uid = some t := by
  cases c with
  | createThread =>
    cases hstep with
    | createThread hcreate =>
      obtain ⟨huid, -, -, hold⟩ := Kernel.createThread_ok hcreate
      have hne : uid ≠ s.kernel.uidValue := ne_of_lt (h.below uid t ht)
      exact (hold uid (huid ▸ hne)).trans ht
  | startThread thid =>
    cases hstep with
    | startThread hstart =>
      rcases Kernel.startThread_cases hstart with rfl | ⟨_, _, _, -, rfl⟩
      · exact ht
      · have hne : uid ≠ thid := fun heq => hother heq.symm
        rw [Kernel.getThread_setThread, if_neg hne, ht]
  | destroy u =>
    cases hstep with
    | destroy =>
      have hne : uid ≠ u := fun heq => hother heq.symm
      rw [Kernel.getThread_destroyKernelObject, if_neg hne, ht]
  | setCore =>
    cases hstep with
    | setCore => exact ht
  | run exec slice =>
    obtain ⟨queue, ⟨-, hk⟩ | ⟨t', -, hslice, hk⟩⟩ := SchedStep.run_cases h hstep
    · rw [hk]
      exact ht
    · subst hslice
      have hne : uid ≠ t'.uid := fun heq => hother heq.symm
      rw [hk, Kernel.getThread_afterSlice, if_neg hne]
      exact ht

theorem Steps.mono {pick : Kernel → Kernel × Option Thread → Prop}
    (hpick : ∀ k fetched, pick k fetched → AnyPick k fetched) {rt : Runtime} {s s' : SchedSys}
    {calls : List SchedCall} (hrun : Steps (SchedStep pick rt) s calls s') :
    Steps (SchedStep AnyPick rt) s calls s' := by
  induction hrun with
  | nil => exact .nil
  | snoc _ hlast ih => exact .snoc ih (hlast.mono hpick)

theorem Steps.owned {rt : Runtime} {s s' : SchedSys} {calls : List SchedCall}
    (hrun : Steps (SchedStep AnyPick rt) s calls s') (h : s.kernel.Owned) : s'.kernel.Owned :=
  hrun.invariant (fun _ _ _ hinv hstep => hstep.owned hinv) h

theorem Steps.frame {rt : Runtime} {s s' : SchedSys} {calls : List SchedCall} {uid : SceUID}
    {t : Thread} (h : s.kernel.Owned) (hrun : Steps (SchedStep AnyPick rt) s calls s')
    (hother : ∀ c ∈ calls, ¬ c.On uid) (ht : s.kernel.getThread uid = some t) :
    s'.kernel.getThread uid = some t := by
  induction hrun with
  | nil => exact ht
  | snoc hrun hlast ih =>
    have hbefore := ih (fun c hc => hother c (List.mem_append_left _ hc))
    exact hlast.frame (Steps.owned hrun h) (hother _ (by simp)) hbefore

/-- A slice begins with the saved context of its thread and saves what it ends with. -/
theorem SchedStep.slice {rt : Runtime} {s s' : SchedSys} {exec : Execution} {o : Slice}
    (h : s.kernel.Owned) (hstep : SchedStep AnyPick rt s (.run exec (some o)) s') :
    ∃ t t', s.kernel.getThread o.uid = some t ∧ s'.kernel.getThread o.uid = some t' ∧
      o.initial = .ofContext t.context ∧ o.startPc = startPc t.context ∧
      t'.context = readContext o.final := by
  obtain ⟨queue, ⟨hnone, -⟩ | ⟨t, ht, hslice, hk⟩⟩ := SchedStep.run_cases h hstep
  · cases hnone
  · cases hslice
    refine ⟨t, t.afterSlice exec, ht, ?_, rfl, rfl, rfl⟩
    rw [hk, Kernel.getThread_afterSlice]
    exact if_pos rfl

/-- The mask `0x20` is the Thumb bit. -/
theorem startPc_eq (context : RegisterContext) :
    startPc context = context.reg 15 ||| if context.cpsr.getLsbD 5 then 1#32 else 0#32 := by
  have hmask : (0x20#32 : Word) = BitVec.twoPow 32 5 := rfl
  unfold startPc
  rw [hmask, BitVec.and_twoPow]
  by_cases hset : context.cpsr.getLsbD 5 = true
  · have hne : BitVec.twoPow 32 5 ≠ 0 := by decide
    rw [if_pos hset, if_pos hset, if_pos hne]
    rfl
  · rw [if_neg hset, if_neg hset, if_neg (by simp)]
    rfl

/-- A slice writes to the context of no other thread. And between two slices of a thread,
whichever threads are picked and whatever is created, started or destroyed besides it: the
second begins with the registers with which the first ended, at the saved program counter
with its Thumb bit. -/
theorem register_isolation {pick : Kernel → Kernel × Option Thread → Prop}
    (hpick : ∀ k fetched, pick k fetched → AnyPick k fetched) {rt : Runtime}
    {engine : RegisterFile} {maps : List MemoryMap} {before : List SchedCall} {s₀ s₁ : SchedSys}
    {exec₁ : Execution} {o₁ : Slice}
    (hbefore : Steps (SchedStep pick rt) (.fresh engine maps) before s₀)
    (hfirst : SchedStep pick rt s₀ (.run exec₁ (some o₁)) s₁) :
    (∀ u t, u ≠ o₁.uid → s₀.kernel.getThread u = some t →
      ∃ t', s₁.kernel.getThread u = some t' ∧ t'.context = t.context) ∧
    ∀ {between : List SchedCall} {s₂ s₃ : SchedSys} {exec₂ : Execution} {o₂ : Slice},
      Steps (SchedStep pick rt) s₁ between s₂ → (∀ c ∈ between, ¬ c.On o₁.uid) →
      SchedStep pick rt s₂ (.run exec₂ (some o₂)) s₃ → o₂.uid = o₁.uid →
      (∀ i : Fin 16, readRegisterFromApi o₂.initial i.val = readRegisterFromApi o₁.final i.val) ∧
        readRegisterFromApi o₂.initial 16 = readRegisterFromApi o₁.final 16 ∧
        ∃ t, s₂.kernel.getThread o₂.uid = some t ∧ t.context = readContext o₁.final ∧
          o₂.startPc = t.context.reg 15 ||| if t.context.cpsr.getLsbD 5 then 1#32 else 0#32 := by
  have h₀ : s₀.kernel.Owned := Steps.owned (Steps.mono hpick hbefore) .new
  have hfirst' := hfirst.mono hpick
  have h₁ : s₁.kernel.Owned := hfirst'.owned h₀
  refine ⟨fun u t hne ht => ⟨t, hfirst'.frame h₀ (fun heq => hne heq.symm) ht, rfl⟩, ?_⟩
  intro between s₂ s₃ exec₂ o₂ hbetween hother hsecond huid
  obtain ⟨-, t₁, -, ht₁, -, -, hsaved⟩ := hfirst'.slice h₀
  -- the saved context waits in the kernel
  have ht₂ : s₂.kernel.getThread o₁.uid = some t₁ :=
    Steps.frame h₁ (Steps.mono hpick hbetween) hother ht₁
  have h₂ : s₂.kernel.Owned := Steps.owned (Steps.mono hpick hbetween) h₁
  obtain ⟨t, -, ht, -, hinitial, hstart, -⟩ := (hsecond.mono hpick).slice h₂
  rw [huid, ht₂] at ht
  cases ht
  have hrestored : o₂.initial = o₁.final := by
    rw [hinitial, hsaved, RegisterFile.ofContext_readContext]
  exact ⟨fun i => by rw [hrestored], by rw [hrestored],
    ⟨t₁, huid ▸ ht₂, hsaved, hstart.trans (startPc_eq _)⟩⟩

/-- A run of the engine that sets R0 and the Thumb bit, and goes to 0x81000010. -/
def setsR0 (value : Word) : Execution where
  registers := fun _ engine =>
    ucRegWrite (ucRegWrite (ucRegWrite engine (.r 0) value) .cpsr 0x30#32) .pc 0x81000010#32
  supervisorCalls := []
  maps := id

/-- Between two slices of the first thread, a second one is created, started, run and
destroyed. -/
def workerCalls (o : Slice) : List SchedCall :=
  [.createThread "worker" 0x81000100#32 160 0x1000#32 0 0, .startThread 0x101 0 0,
    .run (setsR0 9) (some o), .destroy 0x101]

theorem two_slices :
    ∃ s₀ s₁ s₂ s₃ o₁ o o₂,
      Steps (SchedStep FetchPick .new) (.fresh (fun _ => 0) [])
        [.createThread "main" 0x81000000#32 160 0x1000#32 0 0, .startThread 0x100 0 0] s₀ ∧
      SchedStep FetchPick .new s₀ (.run (setsR0 7) (some o₁)) s₁ ∧
      Steps (SchedStep FetchPick .new) s₁ (workerCalls o) s₂ ∧
      SchedStep FetchPick .new s₂ (.run (setsR0 7) (some o₂)) s₃ ∧
      o₁.uid = 0x100 ∧ o.uid = 0x101 ∧ o₂.uid = 0x100 ∧
      readRegisterFromApi o₁.final 0 = 7#32 ∧ readRegisterFromApi o.final 0 = 9#32 := by
  have hbefore : Steps (SchedStep FetchPick .new) (.fresh (fun _ => 0) [])
      (([] ++ [.createThread "main" 0x81000000#32 160 0x1000#32 0 0]) ++
        [.startThread 0x100 0 0]) _ :=
    .snoc (.snoc .nil (.createThread rfl)) (.startThread rfl)
  have hworker {r₀ r₁ r₂ r₃ r₄ : SchedSys} {c₁ c₂ c₃ c₄ : SchedCall}
      (h₁ : SchedStep FetchPick .new r₀ c₁ r₁) (h₂ : SchedStep FetchPick .new r₁ c₂ r₂)
      (h₃ : SchedStep FetchPick .new r₂ c₃ r₃) (h₄ : SchedStep FetchPick .new r₃ c₄ r₄) :
      Steps (SchedStep FetchPick .new) r₀ (((([] ++ [c₁]) ++ [c₂]) ++ [c₃]) ++ [c₄]) r₄ :=
    .snoc (.snoc (.snoc (.snoc .nil h₁) h₂) h₃) h₄
  exact ⟨_, _, _, _, _, _, _, hbefore, .run rfl rfl,
    hworker (.createThread rfl) (.startThread rfl) (.run rfl rfl) .destroy, .run rfl rfl,
    rfl, rfl, rfl, rfl, rfl⟩

/-- The second slice finds the 7 that the first one left in R0, and not the 9 of the other
thread. -/
theorem register_isolation_main :
    ∃ (s₁ s₂ s₃ : SchedSys) (o o₂ : Slice),
      Steps (SchedStep FetchPick .new) s₁ (workerCalls o) s₂ ∧
      SchedStep FetchPick .new s₂ (.run (setsR0 7) (some o₂)) s₃ ∧
      readRegisterFromApi o.final 0 = 9#32 ∧ readRegisterFromApi o₂.initial 0 = 7#32 := by
  obtain ⟨s₀, s₁, s₂, s₃, o₁, o, o₂, hbefore, hfirst, hbetween, hsecond, huid₁, huid, huid₂, hR0,
    hworker⟩ := two_slices
  have hother : ∀ c ∈ workerCalls o, ¬ c.On o₁.uid := by
    simp [workerCalls, SchedCall.On, huid₁, huid]
  obtain ⟨-, hisolated⟩ := register_isolation (fun _ _ => FetchPick.any) hbefore hfirst
  have h := hisolated hbetween hother hsecond (huid₂.trans huid₁.symm)
  exact ⟨s₁, s₂, s₃, o, o₂, hbetween, hsecond, hworker, (h.1 0).trans hR0⟩

end Betavita.Hle
