import Betavita.Hle.Emulator

/-!
# kernel.cpp — the end of the kernel

The destructor goes through `kernel_object_map` and deletes each object, but takes none
out of the map before the end: on its way the map holds pointers to objects that are gone.
It never follows one of them, since it comes to every object by the uid that the object
itself has, and that is the one it is filed under.
-/

namespace Betavita.Hle

open Memory Processor Results Transition

/-- How a pointer of the map can fail: there is none, or its object is deleted. -/
inductive PointerFault
  | nullPointer
  | useAfterFree
  | doubleFree
deriving DecidableEq, Repr

/-- The kernel while it is destroyed, with the uids under which the deleted objects are
filed, in the order of their deletion. -/
structure Teardown where
  kernel : Kernel
  deleted : List SceUID

/-- A read through the pointer that is filed under a uid. -/
def Teardown.deref (s : Teardown) (uid : SceUID) : Except PointerFault KernelObject :=
  match s.kernel.kernelObjectMap uid with
  | none => .error .nullPointer
  | some o => if uid ∈ s.deleted then .error .useAfterFree else .ok o

/-- `remove_uid_from_list(uid)`, which reads the object if there is one. -/
def Teardown.removeUidFromList (s : Teardown) (uid : SceUID) : Except PointerFault Teardown :=
  match s.kernel.kernelObjectMap uid with
  | none => .ok s
  | some _ => do
    let _ ← s.deref uid
    return { s with kernel := s.kernel.removeUidFromList uid }

/-- `delete kobj`. -/
def Teardown.deleteObject (s : Teardown) (uid : SceUID) : Except PointerFault Teardown :=
  if uid ∈ s.deleted then .error .doubleFree
  else .ok { s with deleted := s.deleted ++ [uid] }

/-- The body of the loop, for the entry under `key`. -/
def Teardown.turn (s : Teardown) (key : SceUID) : Except PointerFault Teardown := do
  let object ← s.deref key
  let uid := object.uid
  match s.kernel.kernelObjectMap uid with
  | none => return s
  | some _ =>
    let s ← s.removeUidFromList uid
    s.deleteObject uid

/-- `Kernel::~Kernel`, given the order in which the map is gone through. -/
def Kernel.delete (k : Kernel) (order : List SceUID) : Except PointerFault Teardown := do
  let s ← order.foldlM Teardown.turn ⟨k, []⟩
  return { s with kernel := { s.kernel with kernelObjectMap := fun _ => none } }

/-! ## What the loop relies on -/

/-- Every object is filed under its own uid, below the counter, and the list names the
threads, each once. -/
structure Kernel.Registered (k : Kernel) : Prop where
  own : ∀ u o, k.kernelObjectMap u = some o → o.uid = u
  below : ∀ u o, k.kernelObjectMap u = some o → u < k.uidValue
  nodup : k.threadList.Nodup
  listed : ∀ u ∈ k.threadList, ∃ t, k.kernelObjectMap u = some (.thread t)

theorem Kernel.map_of_getThread {k : Kernel} {u : SceUID} {t : Thread}
    (h : k.getThread u = some t) : k.kernelObjectMap u = some (.thread t) := by
  unfold Kernel.getThread at h
  split at h
  · cases h
    assumption
  · cases h

/-- So it is in every registry. -/
theorem RegistrySys.Consistent.registered {s : RegistrySys} (h : s.Consistent) :
    s.kernel.Registered where
  own := h.own
  below := h.below
  nodup := h.nodup
  listed u hu := by
    obtain ⟨t, ht⟩ := Option.isSome_iff_exists.mp ((h.lookup u).mpr hu)
    exact ⟨t, Kernel.map_of_getThread ht⟩

theorem Kernel.Registered.new : Kernel.new.Registered where
  own u o h := by cases h
  below u o h := by cases h
  nodup := List.nodup_nil
  listed u h := by cases h

/-- Map, counter and list are all that counts. -/
theorem Kernel.Registered.congr {k k' : Kernel} (h : k.Registered)
    (hmap : k'.kernelObjectMap = k.kernelObjectMap) (hvalue : k'.uidValue = k.uidValue)
    (hlist : k'.threadList = k.threadList) : k'.Registered where
  own := hmap ▸ h.own
  below := by
    rw [hmap, hvalue]
    exact h.below
  nodup := hlist ▸ h.nodup
  listed := by
    rw [hmap, hlist]
    exact h.listed

theorem Kernel.Registered.setThread {k : Kernel} (h : k.Registered) {uid : SceUID}
    {t t' : Thread} (ht : k.getThread uid = some t) (huid : t'.uid = uid) :
    (k.setThread uid t').Registered where
  own u o ho := by
    by_cases hu : u = uid
    · subst hu
      simp only [Kernel.setThread, Function.update_self, Option.some.injEq] at ho
      rw [← ho]
      exact huid
    · simp only [Kernel.setThread, Function.update_of_ne hu] at ho
      exact h.own u o ho
  below u o ho := by
    by_cases hu : u = uid
    · subst hu
      exact h.below u _ (Kernel.map_of_getThread ht)
    · simp only [Kernel.setThread, Function.update_of_ne hu] at ho
      exact h.below u o ho
  nodup := h.nodup
  listed u hu := by
    by_cases heq : u = uid
    · subst heq
      exact ⟨t', by simp [Kernel.setThread]⟩
    · obtain ⟨t₀, ht₀⟩ := h.listed u hu
      exact ⟨t₀, by simp [Kernel.setThread, heq, ht₀]⟩

/-- A new object is filed under the next uid. -/
theorem Kernel.Registered.created {k : Kernel} (h : k.Registered) {new : SceUID → KernelObject}
    (hown : ∀ uid, (new uid).uid = uid) : (k.created new).Registered := by
  have hmap := k.created_kernelObjectMap new
  have hlist := k.created_threadList hown
  have hvalue : (k.created new).uidValue = k.uidValue + 1 := by
    simp [Kernel.created]
  have hfresh : k.uidValue ∉ k.threadList := by
    intro hin
    obtain ⟨t, ht⟩ := h.listed _ hin
    exact absurd (h.below _ _ ht) (lt_irrefl _)
  constructor
  · intro u o ho
    rw [hmap] at ho
    by_cases hu : u = k.uidValue
    · subst hu
      simp only [Function.update_self, Option.some.injEq] at ho
      rw [← ho, hown]
    · rw [Function.update_of_ne hu] at ho
      exact h.own u o ho
  · intro u o ho
    rw [hmap] at ho
    rw [hvalue]
    by_cases hu : u = k.uidValue
    · rw [hu]
      exact Int.lt_succ _
    · rw [Function.update_of_ne hu] at ho
      exact lt_trans (h.below u o ho) (Int.lt_succ _)
  · rw [hlist]
    split
    · exact h.nodup.append (List.nodup_singleton _) (by simpa using hfresh)
    · exact h.nodup
  · intro u hu
    rw [hmap]
    by_cases heq : u = k.uidValue
    · subst heq
      rw [Function.update_self]
      cases hnew : new k.uidValue with
      | thread t => exact ⟨t, rfl⟩
      | object uid =>
        rw [hlist, hnew, if_neg (by simp [KernelObject.objectType])] at hu
        exact absurd hu hfresh
    · rw [Function.update_of_ne heq]
      rw [hlist] at hu
      split at hu
      · rw [List.mem_append, List.mem_singleton] at hu
        exact h.listed u (hu.resolve_right heq)
      · exact h.listed u hu

theorem Kernel.Registered.create {k k' : Kernel} (h : k.Registered) {name : String}
    {entry stackSize attr option : Word} {initPriority : Int} {uid : SceUID}
    (hcreate : k.createThread name entry initPriority stackSize attr option = .ok (k', uid)) :
    k'.Registered := by
  have hroom : k.uidValue ≠ 2 ^ 31 - 1 := by
    intro hlast
    simp [Kernel.createThread, Kernel.createKernelObject, Kernel.generateUid, hlast] at hcreate
  rw [Kernel.createThread, Kernel.createKernelObject_eq hroom] at hcreate
  cases hcreate
  exact h.created fun uid => rfl

theorem Kernel.Registered.destroy {k : Kernel} (h : k.Registered) (uid : SceUID) :
    (k.destroyKernelObject uid).1.Registered := by
  have hmap := k.destroyKernelObject_kernelObjectMap uid
  have hlist := Kernel.destroyKernelObject_threadList h.own uid
  have hsub : (k.destroyKernelObject uid).1.threadList.Sublist k.threadList := by
    rw [hlist]
    split
    · exact List.erase_sublist
    · exact .refl _
  constructor
  · intro u o ho
    rw [hmap] at ho
    by_cases hu : u = uid
    · simp [hu] at ho
    · rw [Function.update_of_ne hu] at ho
      exact h.own u o ho
  · intro u o ho
    rw [hmap] at ho
    rw [Kernel.destroyKernelObject_uidValue]
    by_cases hu : u = uid
    · simp [hu] at ho
    · rw [Function.update_of_ne hu] at ho
      exact h.below u o ho
  · exact h.nodup.sublist hsub
  · intro u hu
    obtain ⟨t, ht⟩ := h.listed u (hsub.subset hu)
    have hne : u ≠ uid := by
      rintro rfl
      rw [hlist, if_pos (by simp [Kernel.getThread_of_map ht])] at hu
      exact h.nodup.not_mem_erase hu
    exact ⟨t, by rw [hmap, Function.update_of_ne hne, ht]⟩

/-- So it is in every run of the emulator. -/
theorem SchedStep.registered {rt : Runtime} {s s' : SchedSys} {c : SchedCall}
    (hidle : s.kernel.Idle) (h : s.kernel.Registered) (hstep : SchedStep FetchPick rt s c s') :
    s'.kernel.Registered := by
  cases c with
  | createThread =>
    cases hstep with
    | createThread hcreate => exact h.create hcreate
  | startThread =>
    cases hstep with
    | startThread hstart =>
      rcases Kernel.startThread_cases hstart with rfl | ⟨t, stack, tls, ht, rfl⟩
      · exact h
      · exact h.setThread ht (hidle.owned.own _ t ht)
  | destroy =>
    cases hstep with
    | destroy => exact h.destroy _
  | setCore =>
    cases hstep with
    | setCore => exact h.congr rfl rfl rfl
  | run exec slice =>
    rcases hstep.run_idle hidle with ⟨-, -, hk⟩ | ⟨t, ht, -, -, hk⟩
    · exact hk ▸ h
    · have hcore : Kernel.Registered { s.kernel with
          currentThread := Function.update s.kernel.currentThread 0 (some t.uid)
          currentCore := 0 } := h.congr rfl rfl rfl
      rw [hk]
      exact hcore.setThread (t := t) ht rfl

theorem Steps.registered {rt : Runtime} {display : Display} {maps : List MemoryMap}
    {engine : RegisterFile} {calls : List EmuCall} {m : Machine}
    (hrun : Steps (EmuStep (GuestStep rt)) (.fresh display maps engine) calls m) :
    m.hle.kernel.Registered := by
  induction hrun with
  | nil => exact .new
  | snoc hbefore hlast ih =>
    obtain ⟨c', -, hstep⟩ := hlast.sched
    exact hstep.registered (Steps.emuIdle hbefore) ih

/-! ## The loop -/

/-- Between the turns: the map is as it was, and the list names the threads that are not
deleted. -/
structure Teardown.Ongoing (s : Teardown) (k : Kernel) : Prop where
  map : s.kernel.kernelObjectMap = k.kernelObjectMap
  list : s.kernel.threadList = k.threadList.filter fun u => decide (u ∉ s.deleted)

theorem Kernel.removeUidFromList_map (k : Kernel) (uid : SceUID) :
    (k.removeUidFromList uid).kernelObjectMap = k.kernelObjectMap := by
  unfold Kernel.removeUidFromList
  split <;> rfl

/-- A uid that is taken out of the list is that of a thread, or was not in it. -/
theorem Kernel.removeUidFromList_threadList {k : Kernel}
    (hown : ∀ u o, k.kernelObjectMap u = some o → o.uid = u)
    (hlisted : ∀ u ∈ k.threadList, ∃ t, k.kernelObjectMap u = some (.thread t)) (uid : SceUID) :
    (k.removeUidFromList uid).threadList = k.threadList.erase uid := by
  unfold Kernel.removeUidFromList
  split
  · rename_i t ht
    have huid : t.uid = uid := hown uid _ ht
    rw [huid]
  · rename_i hnot
    symm
    apply List.erase_of_not_mem
    intro hin
    obtain ⟨t, ht⟩ := hlisted uid hin
    exact hnot t ht

/-- A turn deletes the object it is at, if that is not deleted yet. -/
theorem Teardown.Ongoing.turn {s : Teardown} {k : Kernel} (hk : k.Registered)
    (h : s.Ongoing k) {key : SceUID} {o : KernelObject} (ho : k.kernelObjectMap key = some o)
    (hlive : key ∉ s.deleted) :
    ∃ s', s.turn key = .ok s' ∧ s'.Ongoing k ∧ s'.deleted = s.deleted ++ [key] := by
  have hmap : s.kernel.kernelObjectMap key = some o := h.map ▸ ho
  have huid : o.uid = key := hk.own key o ho
  have hderef : s.deref key = .ok o := by
    simp [Teardown.deref, hmap, hlive]
  have hremove : s.removeUidFromList key =
      .ok { s with kernel := s.kernel.removeUidFromList key } := by
    simp only [Teardown.removeUidFromList, hmap, hderef, ok_bind]
    rfl
  refine ⟨⟨s.kernel.removeUidFromList key, s.deleted ++ [key]⟩, ?_, ⟨?_, ?_⟩, rfl⟩
  · simp only [Teardown.turn, hderef, ok_bind, huid, hmap, hremove, Teardown.deleteObject,
      if_neg hlive]
  · rw [Kernel.removeUidFromList_map, h.map]
  · have hown : ∀ u o, s.kernel.kernelObjectMap u = some o → o.uid = u := by
      rw [h.map]
      exact hk.own
    have hlisted : ∀ u ∈ s.kernel.threadList,
        ∃ t, s.kernel.kernelObjectMap u = some (.thread t) := by
      intro u hu
      rw [h.map]
      rw [h.list] at hu
      exact hk.listed u (List.mem_filter.mp hu).1
    rw [Kernel.removeUidFromList_threadList hown hlisted, h.list,
      (hk.nodup.filter _).erase_eq_filter, List.filter_filter]
    apply List.filter_congr
    intro u _
    by_cases hu : u = key <;> simp [hu]

theorem Teardown.Ongoing.loop {s : Teardown} {k : Kernel} (hk : k.Registered)
    (h : s.Ongoing k) {order : List SceUID} (hnodup : order.Nodup)
    (hlive : ∀ u ∈ order, (k.kernelObjectMap u).isSome ∧ u ∉ s.deleted) :
    ∃ s', order.foldlM Teardown.turn s = .ok s' ∧ s'.Ongoing k ∧
      s'.deleted = s.deleted ++ order := by
  induction order generalizing s with
  | nil => exact ⟨s, rfl, h, by simp⟩
  | cons key order ih =>
    obtain ⟨hkey, hnodup⟩ := List.nodup_cons.mp hnodup
    obtain ⟨hsome, hnot⟩ := hlive key (List.mem_cons_self ..)
    obtain ⟨o, ho⟩ := Option.isSome_iff_exists.mp hsome
    obtain ⟨s₁, hturn, h₁, hdeleted⟩ := h.turn hk ho hnot
    have hlive₁ : ∀ u ∈ order, (k.kernelObjectMap u).isSome ∧ u ∉ s₁.deleted := by
      intro u hu
      obtain ⟨hsome, hnot⟩ := hlive u (List.mem_cons_of_mem key hu)
      have hne : u ≠ key := by
        rintro rfl
        exact hkey hu
      exact ⟨hsome, by simp [hdeleted, hnot, hne]⟩
    obtain ⟨s', hrun, h', hdeleted'⟩ := ih h₁ hnodup hlive₁
    refine ⟨s', ?_, h', by simp [hdeleted', hdeleted]⟩
    rw [List.foldlM_cons, hturn]
    exact hrun

/-- The destructor deletes every object, in the order in which it comes to them. -/
theorem Kernel.Registered.delete {k : Kernel} (hk : k.Registered) {order : List SceUID}
    (hnodup : order.Nodup) (horder : ∀ u, u ∈ order ↔ (k.kernelObjectMap u).isSome) :
    ∃ s, k.delete order = .ok s ∧ s.deleted = order ∧ s.kernel.threadList = [] := by
  have hstart : Teardown.Ongoing ⟨k, []⟩ k := ⟨rfl, by simp⟩
  obtain ⟨s, hrun, hs, hdeleted⟩ :=
    hstart.loop hk hnodup fun u hu => ⟨(horder u).mp hu, by simp⟩
  refine ⟨{ s with kernel := { s.kernel with kernelObjectMap := fun _ => none } }, ?_,
    hdeleted, ?_⟩
  · rw [Kernel.delete, hrun]
    rfl
  · show s.kernel.threadList = []
    rw [hs.list, List.filter_eq_nil_iff]
    intro u hu
    obtain ⟨t, ht⟩ := hk.listed u hu
    have hin : u ∈ order := (horder u).mpr (by simp [ht])
    simp [hdeleted, hin]

/-- The same for a registry, which has objects that are no threads as well. -/
theorem registry_destructor (calls : List RegistryCall)
    (h : calls.countP RegistryCall.creates < 2 ^ 31 - 0x100) :
    ∃ s, calls.foldlM RegistrySys.perform RegistrySys.fresh = .ok s ∧
      ∀ order : List SceUID, order.Nodup →
        (∀ u, u ∈ order ↔ (s.kernel.kernelObjectMap u).isSome) →
        ∃ s', s.kernel.delete order = .ok s' ∧ s'.deleted = order ∧ s'.kernel.threadList = [] := by
  have hroom : RegistrySys.fresh.issued.length + calls.countP RegistryCall.creates <
      2 ^ 31 - 0x100 := by
    simpa [RegistrySys.fresh] using h
  obtain ⟨s, hrun, hkept⟩ := RegistrySys.Kept.fresh.run hroom
  exact ⟨s, hrun, fun order hnodup horder => hkept.consistent.registered.delete hnodup horder⟩

/-- After every run of the emulator, in whatever order the destructor goes through the map:
it follows no pointer to an object that is gone, deletes every object once, and leaves no
uid in the list of threads. -/
theorem kernel_destructor {rt : Runtime} {display : Display} {maps : List MemoryMap}
    {engine : RegisterFile} {calls : List EmuCall} {m : Machine}
    (hrun : Steps (EmuStep (GuestStep rt)) (.fresh display maps engine) calls m)
    {order : List SceUID} (hnodup : order.Nodup)
    (horder : ∀ u, u ∈ order ↔ (m.hle.kernel.kernelObjectMap u).isSome) :
    ∃ s, m.hle.kernel.delete order = .ok s ∧ s.deleted = order ∧ s.kernel.threadList = [] :=
  (Steps.registered hrun).delete hnodup horder

/-- Three threads, of which the second is destroyed before, and the last is met first. -/
theorem kernel_destructor_three :
    ∃ m : Machine, m.hle.kernel.threadList = [0x100, 0x102] ∧
      ∃ s, m.hle.kernel.delete [0x102, 0x100] = .ok s ∧ s.deleted = [0x102, 0x100] ∧
        s.kernel.threadList = [] := by
  have hrun : Steps (EmuStep (GuestStep lockRuntime)) (.fresh noDisplay [] fun _ => 0)
      (((([] ++ [.createThread "main" 0x81000000#32 160 0x1000#32 0 0]) ++
        [.createThread "second" 0x81000000#32 160 0x1000#32 0 0]) ++
        [.createThread "third" 0x82000000#32 160 0x2000#32 0 0]) ++ [.destroy 0x101]) _ :=
    .snoc (.snoc (.snoc (.snoc .nil (.createThread rfl)) (.createThread rfl)) (.createThread rfl))
      .destroy
  refine ⟨_, rfl, kernel_destructor hrun (by decide) fun u => ?_⟩
  show u ∈ [0x102, 0x100] ↔ (Function.update (Function.update (Function.update
    (Function.update (fun _ => none) 0x100 (some _)) 0x101 (some _)) 0x102 (some _))
    0x101 none u).isSome = true
  by_cases h₁ : u = 0x101
  · simp [h₁]
  · by_cases h₂ : u = 0x102
    · simp [h₂]
    · by_cases h₀ : u = 0x100 <;> simp [h₀, h₁, h₂]

end Betavita.Hle
