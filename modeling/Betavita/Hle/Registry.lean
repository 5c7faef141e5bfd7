import Betavita.Hle.Kernel

/-!
# kernel.h, kernel.cpp — the registry of kernel objects

Objects are created under a fresh uid and destroyed by it; threads are also kept in
`thread_list`. The map, the list and the counter are kept in step by every sequence of
creations and destructions, as long as the counter has uids left.
-/

namespace Betavita.Hle

open Memory

/-- The calls that create and destroy objects. `new Thread` leaves the fields it does not
set with the contents given here. -/
inductive RegistryCall
  | createThreadObject (contents : Thread)
  | createObject
  | createThread (name : String) (entry : Word) (initPriority : Int)
      (stackSize attr option : Word)
  | destroy (uid : SceUID)

def RegistryCall.creates : RegistryCall → Bool
  | .destroy _ => false
  | _ => true

/-- The kernel, the uids that were issued, in order, and the objects of which none was destroyed
since, with their types. -/
structure RegistrySys where
  kernel : Kernel
  issued : List SceUID
  live : List (SceUID × SceObjectType)

def RegistrySys.fresh : RegistrySys := ⟨Kernel.new, [], []⟩

def RegistrySys.perform (s : RegistrySys) : RegistryCall → Except Trap RegistrySys
  | .createThreadObject contents => do
    let (kernel, uid) ←
      s.kernel.createKernelObject fun uid => .thread { contents with uid := uid }
    return ⟨kernel, s.issued ++ [uid], s.live ++ [(uid, .thread)]⟩
  | .createObject => do
    let (kernel, uid) ← s.kernel.createKernelObject .object
    return ⟨kernel, s.issued ++ [uid], s.live ++ [(uid, .none)]⟩
  | .createThread name entry initPriority stackSize attr option => do
    let (kernel, uid) ← s.kernel.createThread name entry initPriority stackSize attr option
    return ⟨kernel, s.issued ++ [uid], s.live ++ [(uid, .thread)]⟩
  | .destroy uid =>
    .ok ⟨(s.kernel.destroyKernelObject uid).1, s.issued, s.live.filter fun o => o.1 ≠ uid⟩

/-- The map, the list and the counter agree. -/
structure RegistrySys.Consistent (s : RegistrySys) : Prop where
  own : ∀ u o, s.kernel.kernelObjectMap u = some o → o.uid = u
  below : ∀ u o, s.kernel.kernelObjectMap u = some o → u < s.kernel.uidValue
  once : s.issued.Nodup
  nodup : s.kernel.threadList.Nodup
  threads : ∀ u, u ∈ s.kernel.threadList ↔
    ∃ o, s.kernel.kernelObjectMap u = some o ∧ o.objectType = .thread
  order : s.kernel.threadList.Sublist s.issued
  lookup : ∀ u, (s.kernel.getThread u).isSome ↔ u ∈ s.kernel.threadList
  live : ∀ u type, (u, type) ∈ s.live ↔
    ∃ o, s.kernel.kernelObjectMap u = some o ∧ o.objectType = type

/-! ## What every call keeps -/

/-- The counter says how many uids were issued, and the list is what is left of them
when all that are no thread any more are taken out. -/
structure RegistrySys.Kept (s : RegistrySys) : Prop where
  counter : s.kernel.uidValue = 0x100 + s.issued.length
  below : ∀ u ∈ s.issued, u < s.kernel.uidValue
  once : s.issued.Nodup
  own : ∀ u o, s.kernel.kernelObjectMap u = some o → u ∈ s.issued ∧ o.uid = u
  list : s.kernel.threadList = s.issued.filter fun u => (s.kernel.getThread u).isSome
  live : ∀ u type, (u, type) ∈ s.live ↔
    (s.kernel.kernelObjectMap u).map KernelObject.objectType = some type

theorem RegistrySys.Kept.fresh : RegistrySys.fresh.Kept where
  counter := rfl
  below := by simp [RegistrySys.fresh]
  once := List.nodup_nil
  own := by simp [RegistrySys.fresh, Kernel.new]
  list := rfl
  live := by simp [RegistrySys.fresh, Kernel.new]

theorem Kernel.getThread_isSome_iff {k : Kernel} {u : SceUID} :
    (k.getThread u).isSome ↔ ∃ o, k.kernelObjectMap u = some o ∧ o.objectType = .thread := by
  unfold Kernel.getThread
  constructor
  · intro h
    split at h
    · rename_i t ht
      exact ⟨.thread t, ht, rfl⟩
    · cases h
  · rintro ⟨o, ho, htype⟩
    cases o with
    | object uid => cases htype
    | thread t => simp [ho]

theorem RegistrySys.Kept.consistent {s : RegistrySys} (h : s.Kept) : s.Consistent where
  own u o ho := (h.own u o ho).2
  below u o ho := h.below u (h.own u o ho).1
  once := h.once
  nodup := h.list ▸ h.once.filter _
  threads u := by
    rw [h.list, List.mem_filter, ← Kernel.getThread_isSome_iff]
    refine and_iff_right_of_imp fun hlive => ?_
    obtain ⟨o, ho, -⟩ := Kernel.getThread_isSome_iff.mp hlive
    exact (h.own u o ho).1
  order := h.list ▸ List.filter_sublist
  lookup u := by
    rw [h.list, List.mem_filter]
    refine (and_iff_right_of_imp fun hlive => ?_).symm
    obtain ⟨o, ho, -⟩ := Kernel.getThread_isSome_iff.mp hlive
    exact (h.own u o ho).1
  live u type := by
    rw [h.live, Option.map_eq_some_iff]

/-- An object of the next uid, as `create_kernel_object` stores it. -/
def Kernel.created (k : Kernel) (new : SceUID → KernelObject) : Kernel :=
  let uid := k.uidValue
  { k with
    uidValue := uid + 1
    kernelObjectMap := Function.update k.kernelObjectMap uid (some (new uid)) }.addUidToList uid

theorem Kernel.createKernelObject_eq {k : Kernel} (h : k.uidValue ≠ 2 ^ 31 - 1)
    (new : SceUID → KernelObject) :
    k.createKernelObject new = .ok (k.created new, k.uidValue) := by
  unfold Kernel.createKernelObject Kernel.generateUid
  rw [if_neg h]
  rfl

@[simp] theorem Kernel.addUidToList_kernelObjectMap (k : Kernel) (uid : SceUID) :
    (k.addUidToList uid).kernelObjectMap = k.kernelObjectMap := by
  unfold Kernel.addUidToList
  split <;> rfl

theorem Kernel.created_kernelObjectMap (k : Kernel) (new : SceUID → KernelObject) :
    (k.created new).kernelObjectMap =
      Function.update k.kernelObjectMap k.uidValue (some (new k.uidValue)) := by
  unfold Kernel.created
  exact Kernel.addUidToList_kernelObjectMap ..

theorem Kernel.created_threadList (k : Kernel) {new : SceUID → KernelObject}
    (hown : ∀ uid, (new uid).uid = uid) :
    (k.created new).threadList =
      if (new k.uidValue).objectType = .thread then k.threadList ++ [k.uidValue]
      else k.threadList := by
  have hself := hown k.uidValue
  cases hnew : new k.uidValue with
  | object uid => simp [Kernel.created, Kernel.addUidToList, hnew, KernelObject.objectType]
  | thread t =>
    rw [hnew] at hself
    have huid : t.uid = k.uidValue := hself
    simp [Kernel.created, Kernel.addUidToList, hnew, KernelObject.objectType, huid]

theorem Kernel.destroyKernelObject_kernelObjectMap (k : Kernel) (uid : SceUID) :
    (k.destroyKernelObject uid).1.kernelObjectMap =
      Function.update k.kernelObjectMap uid none := by
  unfold Kernel.destroyKernelObject Kernel.removeUidFromList
  split
  · rename_i hnone
    exact (Function.update_eq_self_iff.mpr hnone.symm).symm
  · split <;> rfl

theorem Kernel.destroyKernelObject_threadList {k : Kernel}
    (hown : ∀ u o, k.kernelObjectMap u = some o → o.uid = u) (uid : SceUID) :
    (k.destroyKernelObject uid).1.threadList =
      if (k.getThread uid).isSome then k.threadList.erase uid else k.threadList := by
  unfold Kernel.destroyKernelObject Kernel.removeUidFromList Kernel.getThread
  cases ho : k.kernelObjectMap uid with
  | none => rfl
  | some o =>
    cases o with
    | object _ => rfl
    | thread t =>
      have huid : t.uid = uid := hown uid _ ho
      simp [huid]

theorem Kernel.destroyKernelObject_uidValue (k : Kernel) (uid : SceUID) :
    (k.destroyKernelObject uid).1.uidValue = k.uidValue := by
  unfold Kernel.destroyKernelObject Kernel.removeUidFromList
  split
  · rfl
  · split <;> rfl

/-- A new uid is larger than all that were issued, so the old lookups stay. -/
theorem RegistrySys.Kept.create {s : RegistrySys} (h : s.Kept) (new : SceUID → KernelObject)
    (hown : ∀ uid, (new uid).uid = uid) :
    RegistrySys.Kept ⟨s.kernel.created new, s.issued ++ [s.kernel.uidValue],
      s.live ++ [(s.kernel.uidValue, (new s.kernel.uidValue).objectType)]⟩ where
  counter := by
    have hval : (s.kernel.created new).uidValue = s.kernel.uidValue + 1 := by
      simp [Kernel.created]
    simp only [hval, h.counter, List.length_append, List.length_singleton]
    omega
  below u hu := by
    have hval : (s.kernel.created new).uidValue = s.kernel.uidValue + 1 := by
      simp [Kernel.created]
    simp only [hval]
    rcases List.mem_append.mp hu with hu | hu
    · exact lt_trans (h.below u hu) (lt_add_one _)
    · rw [List.mem_singleton.mp hu]
      exact lt_add_one _
  once := by
    refine h.once.append (List.nodup_singleton _) ?_
    intro u hu hnew
    rw [List.mem_singleton] at hnew
    exact absurd (hnew ▸ h.below u hu) (lt_irrefl _)
  own u o ho := by
    simp only [Kernel.created_kernelObjectMap] at ho
    by_cases hu : u = s.kernel.uidValue
    · subst hu
      rw [Function.update_self] at ho
      cases ho
      exact ⟨by simp, hown _⟩
    · rw [Function.update_of_ne hu] at ho
      exact ⟨List.mem_append_left _ (h.own u o ho).1, (h.own u o ho).2⟩
  list := by
    have hold : ∀ u ∈ s.issued,
        ((s.kernel.created new).getThread u).isSome = (s.kernel.getThread u).isSome := by
      intro u hu
      have hne : u ≠ s.kernel.uidValue := ne_of_lt (h.below u hu)
      simp [Kernel.getThread, Kernel.created_kernelObjectMap, Function.update_of_ne hne]
    have hnew : ((s.kernel.created new).getThread s.kernel.uidValue).isSome =
        decide ((new s.kernel.uidValue).objectType = .thread) := by
      cases ho : new s.kernel.uidValue <;>
        simp [Kernel.getThread, Kernel.created_kernelObjectMap, ho, KernelObject.objectType]
    simp only [Kernel.created_threadList _ hown, List.filter_append, List.filter_congr hold,
      ← h.list, List.filter_singleton, hnew]
    by_cases htype : (new s.kernel.uidValue).objectType = .thread <;> simp [htype]
  live u type := by
    simp only [Kernel.created_kernelObjectMap, List.mem_append, List.mem_singleton,
      Prod.mk.injEq]
    by_cases hu : u = s.kernel.uidValue
    · -- the counter names no object
      have hold : (u, type) ∉ s.live := by
        rw [h.live, Option.map_eq_some_iff]
        rintro ⟨o, ho, -⟩
        exact absurd hu (ne_of_lt (h.below u (h.own u o ho).1))
      subst hu
      simp [hold, eq_comm]
    · rw [Function.update_of_ne hu, h.live]
      simp [hu]

theorem RegistrySys.Kept.destroy {s : RegistrySys} (h : s.Kept) (uid : SceUID) :
    RegistrySys.Kept ⟨(s.kernel.destroyKernelObject uid).1, s.issued,
      s.live.filter fun o => o.1 ≠ uid⟩ where
  counter := by simp only [Kernel.destroyKernelObject_uidValue, h.counter]
  below := by simpa only [Kernel.destroyKernelObject_uidValue] using h.below
  once := h.once
  own u o ho := by
    simp only [Kernel.destroyKernelObject_kernelObjectMap] at ho
    by_cases hu : u = uid
    · subst hu
      rw [Function.update_self] at ho
      cases ho
    · rw [Function.update_of_ne hu] at ho
      exact h.own u o ho
  list := by
    have hlive : ∀ u, ((s.kernel.destroyKernelObject uid).1.getThread u).isSome =
        (decide (u ≠ uid) && (s.kernel.getThread u).isSome) := by
      intro u
      by_cases hu : u = uid
      · subst hu
        simp [Kernel.getThread, Kernel.destroyKernelObject_kernelObjectMap]
      · simp [Kernel.getThread, Kernel.destroyKernelObject_kernelObjectMap,
          hu]
    have hown : ∀ u o, s.kernel.kernelObjectMap u = some o → o.uid = u :=
      fun u o ho => (h.own u o ho).2
    have hlist : s.kernel.threadList.Nodup := h.consistent.nodup
    simp only [Kernel.destroyKernelObject_threadList hown, hlive]
    rw [← List.filter_filter, ← h.list]
    split
    · rw [hlist.erase_eq_filter]
      exact List.filter_congr fun u _ => by rw [bne, beq_eq_decide, ← decide_not]
    · rename_i hdead
      -- a uid that names no thread is not in the list
      refine (List.filter_eq_self.mpr fun u hu => ?_).symm
      have hin := (h.consistent.lookup u).mpr hu
      simp only [ne_eq, decide_eq_true_eq]
      rintro rfl
      exact hdead hin
  live u type := by
    simp only [Kernel.destroyKernelObject_kernelObjectMap, List.mem_filter, decide_eq_true_eq]
    by_cases hu : u = uid
    · subst hu
      simp
    · rw [Function.update_of_ne hu, h.live]
      exact and_iff_left hu

/-- As long as a uid is left, every call is defined and keeps the registry. -/
theorem RegistrySys.Kept.perform {s : RegistrySys} (h : s.Kept) {call : RegistryCall}
    (hroom : call.creates → s.issued.length + 1 < 2 ^ 31 - 0x100) :
    ∃ s', s.perform call = .ok s' ∧ s'.Kept ∧
      s'.issued.length = s.issued.length + if call.creates then 1 else 0 := by
  have hcreate : ∀ {new : SceUID → KernelObject}, call.creates →
      s.kernel.createKernelObject new = .ok (s.kernel.created new, s.kernel.uidValue) := by
    intro new hcall
    refine Kernel.createKernelObject_eq ?_ new
    have hlen := hroom hcall
    have hcounter := h.counter
    omega
  cases call with
  | createThreadObject contents =>
    refine ⟨_, ?_, h.create (fun uid => .thread { contents with uid := uid })
      fun uid => rfl, by simp [RegistryCall.creates]⟩
    simp only [RegistrySys.perform, hcreate rfl]
    rfl
  | createObject =>
    refine ⟨_, ?_, h.create .object fun uid => rfl, by simp [RegistryCall.creates]⟩
    simp only [RegistrySys.perform, hcreate rfl]
    rfl
  | createThread name entry initPriority stackSize attr option =>
    refine ⟨_, ?_, h.create (fun uid =>
      .thread (.created name entry initPriority stackSize attr uid)) fun uid => rfl,
      by simp [RegistryCall.creates]⟩
    simp only [RegistrySys.perform, Kernel.createThread, hcreate rfl]
    rfl
  | destroy uid => exact ⟨_, rfl, h.destroy uid, by simp [RegistryCall.creates]⟩

theorem RegistrySys.Kept.run {calls : List RegistryCall} {s : RegistrySys} (h : s.Kept)
    (hroom : s.issued.length + calls.countP RegistryCall.creates < 2 ^ 31 - 0x100) :
    ∃ s', calls.foldlM RegistrySys.perform s = .ok s' ∧ s'.Kept := by
  induction calls generalizing s with
  | nil => exact ⟨s, rfl, h⟩
  | cons call calls ih =>
    rw [List.countP_cons] at hroom
    have hroom' : call.creates → s.issued.length + 1 < 2 ^ 31 - 0x100 := by
      intro hcall
      rw [hcall] at hroom
      simp only [if_true] at hroom
      omega
    obtain ⟨s', hperform, hkept, hlen⟩ := h.perform hroom'
    obtain ⟨s'', hrun, hkept'⟩ := ih hkept (by rw [hlen]; omega)
    refine ⟨s'', ?_, hkept'⟩
    rw [List.foldlM_cons, hperform]
    exact hrun

/-- After every sequence of creations and destructions, with fewer creations than there
are uids, the map, the list and the counter agree, and the map has the objects that were
created and not destroyed. -/
theorem kernel_registry (calls : List RegistryCall)
    (h : calls.countP RegistryCall.creates < 2 ^ 31 - 0x100) :
    ∃ s, calls.foldlM RegistrySys.perform RegistrySys.fresh = .ok s ∧ s.Consistent := by
  have hroom : RegistrySys.fresh.issued.length + calls.countP RegistryCall.creates <
      2 ^ 31 - 0x100 := by
    simpa [RegistrySys.fresh] using h
  obtain ⟨s, hrun, hkept⟩ := RegistrySys.Kept.fresh.run hroom
  exact ⟨s, hrun, hkept.consistent⟩

/-- Two objects and a thread, of which the first is destroyed. -/
theorem kernel_registry_three :
    ∃ s, [RegistryCall.createObject, .createThread "main" 0x81000000#32 160 0x1000#32 0 0,
        .createObject, .destroy 0x100].foldlM RegistrySys.perform RegistrySys.fresh = .ok s ∧
      s.Consistent :=
  kernel_registry _ (by decide)

end Betavita.Hle
