import Betavita.Lib.Transition
import Betavita.Memory.Map

/-!
# main.cpp — the map list and the CPU engine

The emulator keeps every mapping twice: as an entry of `memory_map_list` and inside
the CPU engine, which it reaches through three calls. The engine is a parameter; what
is assumed of it is that its calls act on exactly the given range.
-/

namespace Betavita.Processor

open Memory Transition

/-- A set of `UC_PROT_*` flags. -/
abbrev Perms := BitVec 32

def UC_PROT_READ : Perms := 1#32
def UC_PROT_WRITE : Perms := 2#32
def UC_PROT_EXEC : Perms := 4#32

/-- The loop over the three flags of `protection`. -/
def permsOf (protection : ProtectionType) : Perms :=
  [0, 1, 2].foldl (fun perms x =>
    let flag := protection &&& (1#8 <<< x)
    if flag = PROTECTION_TYPE_EXECUTE then perms ||| UC_PROT_EXEC
    else if flag = PROTECTION_TYPE_READ then perms ||| UC_PROT_READ
    else if flag = PROTECTION_TYPE_WRITE then perms ||| UC_PROT_WRITE
    else perms) 0#32

/-- The engine: its three calls (start, size, flags), and the permissions with which
it maps an address. -/
structure Unicorn (E : Type) where
  memMapPtr : E → Word → Word → Perms → E
  memUnmap : E → Word → Word → E
  memProtect : E → Word → Word → Perms → E
  view : E → Word → Option Perms

/-- `size` bytes from `start` on. -/
def InRange (start size a : Word) : Prop :=
  start.toNat ≤ a.toNat ∧ a.toNat < start.toNat + size.toNat

instance (start size a : Word) : Decidable (InRange start size a) :=
  inferInstanceAs (Decidable (_ ∧ _))

/-- The ranges the engine takes: whole pages inside the address space. -/
structure PageRange (start size : Word) : Prop where
  start_aligned : start.toNat % 4096 = 0
  size_aligned : size.toNat % 4096 = 0
  fits : start.toNat + size.toNat ≤ 2 ^ 32

/-- The calls act on exactly the given range: mapping fills a free range, unmapping
empties a mapped one, protecting changes the permissions of a mapped one. Of a range
that is mapped in part only this is said: no address of it becomes mapped, or mapped
with anything but the old or the new permissions. -/
structure Unicorn.ActsOnRange {E : Type} (u : Unicorn E) : Prop where
  map_inside : ∀ e start size perms, PageRange start size →
    (∀ a, InRange start size a → u.view e a = none) →
    ∀ a, InRange start size a → u.view (u.memMapPtr e start size perms) a = some perms
  map_outside : ∀ e start size perms a, PageRange start size → ¬ InRange start size a →
    u.view (u.memMapPtr e start size perms) a = u.view e a
  unmap_inside : ∀ e start size, PageRange start size →
    (∀ a, InRange start size a → u.view e a ≠ none) →
    ∀ a, InRange start size a → u.view (u.memUnmap e start size) a = none
  unmap_outside : ∀ e start size a, PageRange start size → ¬ InRange start size a →
    u.view (u.memUnmap e start size) a = u.view e a
  unmap_none : ∀ e start size a, PageRange start size → u.view e a = none →
    u.view (u.memUnmap e start size) a = none
  protect_inside : ∀ e start size perms, PageRange start size →
    (∀ a, InRange start size a → u.view e a ≠ none) →
    ∀ a, InRange start size a → u.view (u.memProtect e start size perms) a = some perms
  protect_outside : ∀ e start size perms a, PageRange start size → ¬ InRange start size a →
    u.view (u.memProtect e start size perms) a = u.view e a
  protect_part : ∀ e start size perms a, PageRange start size →
    u.view (u.memProtect e start size perms) a = u.view e a ∨
      u.view e a ≠ none ∧ u.view (u.memProtect e start size perms) a = some perms

section Host

variable {E : Type} (u : Unicorn E)

/-- `map_memory_from_api`; the engine is null until it is opened. -/
def mapMemoryFromApi (engine : Option E) (start end_ : Word) (protection : ProtectionType) :
    Option E :=
  engine.map fun e => u.memMapPtr e start ((end_ - start) + 1) (permsOf protection)

def unmapMemoryFromApi (engine : Option E) (start end_ : Word) : Option E :=
  engine.map fun e => u.memUnmap e start ((end_ - start) + 1)

def changeProtectionFromApi (engine : Option E) (start end_ : Word)
    (protection : ProtectionType) : Option E :=
  engine.map fun e => u.memProtect e start ((end_ - start) + 1) (permsOf protection)

/-- The two places a mapping is kept in. -/
structure Host (E : Type) where
  memoryMapList : List MemoryMap
  engine : Option E

def Host.mapMemory (h : Host E) (name : String) (start end_ : Word)
    (protection : ProtectionType) : Host E where
  memoryMapList := Memory.mapMemory h.memoryMapList name start end_ protection
  engine := mapMemoryFromApi u h.engine start end_ protection

/-- `unmap_memory`: the list is not touched. -/
def Host.unmapMemory (h : Host E) (start end_ : Word) : Host E :=
  { h with engine := unmapMemoryFromApi u h.engine start end_ }

def Host.unmapMemoryAll (h : Host E) : Host E where
  memoryMapList := []
  engine := h.memoryMapList.foldl (fun engine i => unmapMemoryFromApi u engine i.start i.end_)
    h.engine

/-- An entry that holds both ends of the range gets the new protection. -/
def protectEntry (start end_ : Word) (protection : ProtectionType) (i : MemoryMap) : MemoryMap :=
  if (start ≥ i.start ∧ start ≤ i.end_) ∧ (end_ ≥ i.start ∧ end_ ≤ i.end_) then
    { i with protection := protection }
  else i

def Host.changeProtection (h : Host E) (start end_ : Word) (protection : ProtectionType) :
    Host E where
  memoryMapList := h.memoryMapList.map (protectEntry start end_ protection)
  engine := changeProtectionFromApi u h.engine start end_ protection

/-- What `main` does once the engine is open: every entry is mapped into it. -/
def replay (e : E) (memoryMapList : List MemoryMap) : Host E where
  memoryMapList := memoryMapList
  engine := memoryMapList.foldl
    (fun engine i => mapMemoryFromApi u engine i.start i.end_ i.protection) (some e)

/-- A call that changes mappings. -/
inductive MapCall
  | mapMemory (name : String) (start end_ : Word) (protection : ProtectionType)
  | unmapMemory (start end_ : Word)
  | unmapMemoryAll
  | changeProtection (start end_ : Word) (protection : ProtectionType)

def Host.perform (h : Host E) : MapCall → Host E
  | .mapMemory name start end_ protection => h.mapMemory u name start end_ protection
  | .unmapMemory start end_ => h.unmapMemory u start end_
  | .unmapMemoryAll => h.unmapMemoryAll u
  | .changeProtection start end_ protection => h.changeProtection u start end_ protection

/-- An address is mapped in the engine with permissions `q` exactly when it lies in an
entry of the list with those permissions. -/
def Host.Agrees (h : Host E) : Prop :=
  ∃ e, h.engine = some e ∧ ∀ a q, u.view e a = some q ↔
    ∃ it ∈ h.memoryMapList, it.Covers a ∧ permsOf it.protection = q

end Host

/-! ## Ranges of whole pages -/

/-- The inclusive range consists of whole pages. -/
structure WholePages (start end_ : Word) : Prop where
  ordered : start ≤ end_
  first : start.toNat % 4096 = 0
  last : end_.toNat % 4096 = 4095

/-- The 32-bit size is that of the range, unless the range is the whole address space. -/
theorem WholePages.size {start end_ : Word} (h : WholePages start end_)
    (hne : (end_ - start) + 1 ≠ 0) :
    ((end_ - start) + 1).toNat = end_.toNat + 1 - start.toNat := by
  have hord := h.ordered
  have hpos : ((end_ - start) + 1).toNat ≠ 0 := by
    intro hz
    exact hne (BitVec.eq_of_toNat_eq hz)
  bv_omega

theorem WholePages.pageRange {start end_ : Word} (h : WholePages start end_) :
    PageRange start ((end_ - start) + 1) := by
  have hfirst := h.first
  have hlast := h.last
  have hord := h.ordered
  have hlt := end_.isLt
  by_cases hz : (end_ - start) + 1 = 0
  · exact ⟨hfirst, by rw [hz]; rfl, by rw [hz]; have := start.isLt; simp; omega⟩
  · have hsize := h.size hz
    have hle : start.toNat ≤ end_.toNat := hord
    exact ⟨hfirst, by omega, by omega⟩

theorem WholePages.inRange_iff {start end_ a : Word} (h : WholePages start end_)
    (hne : (end_ - start) + 1 ≠ 0) :
    InRange start ((end_ - start) + 1) a ↔ start ≤ a ∧ a ≤ end_ := by
  have hsize := h.size hne
  have hle : start.toNat ≤ end_.toNat := h.ordered
  rw [InRange, hsize, BitVec.le_def, BitVec.le_def]
  omega

theorem not_inRange_zero {start size a : Word} (hz : size = 0) : ¬ InRange start size a := by
  intro h
  rw [InRange, hz] at h
  simp only [BitVec.ofNat_eq_ofNat, BitVec.toNat_ofNat] at h
  omega

/-! ## What the calls keep -/

/-- The entry and the range have a common address. -/
def Meets (it : MemoryMap) (start end_ : Word) : Prop :=
  ∃ a, (start ≤ a ∧ a ≤ end_) ∧ it.Covers a

/-- Entries the engine takes as they are: whole pages without overlaps, and not the whole
address space in one entry, whose 32-bit size is `0`. -/
structure Replayable (maps : List MemoryMap) : Prop where
  laid : Laid maps
  pages : ∀ it ∈ maps, WholePages it.start it.end_
  sized : ∀ it ∈ maps, (it.end_ - it.start) + 1 ≠ 0

/-- The agreement in terms of the entries: the engine maps the addresses of each with its
permissions, and no other address. -/
structure Mirrors {E : Type} (u : Unicorn E) (maps : List MemoryMap) (e : E) : Prop where
  list : Replayable maps
  covered : ∀ it ∈ maps, ∀ a, it.Covers a → u.view e a = some (permsOf it.protection)
  uncovered : ∀ a, (∀ it ∈ maps, ¬ it.Covers a) → u.view e a = none

section Mirrors

variable {E : Type} {u : Unicorn E} {maps : List MemoryMap} {e : E}

theorem Replayable.inRange_iff (h : Replayable maps) {it : MemoryMap} (hit : it ∈ maps)
    {a : Word} : InRange it.start ((it.end_ - it.start) + 1) a ↔ it.Covers a :=
  (h.pages it hit).inRange_iff (h.sized it hit)

theorem Mirrors.nil (h : ∀ a, u.view e a = none) : Mirrors u [] e :=
  ⟨⟨.nil, by simp, by simp⟩, by simp, fun a _ => h a⟩

theorem Mirrors.of_perm {maps' : List MemoryMap} (h : Mirrors u maps e) (hp : maps.Perm maps') :
    Mirrors u maps' e where
  list :=
    { laid := h.list.laid.of_perm hp
      pages := fun it hit => h.list.pages it (hp.mem_iff.mpr hit)
      sized := fun it hit => h.list.sized it (hp.mem_iff.mpr hit) }
  covered := fun it hit => h.covered it (hp.mem_iff.mpr hit)
  uncovered := fun a ha => h.uncovered a fun it hit => ha it (hp.mem_iff.mp hit)

/-- An address of one entry lies in no other. -/
theorem Mirrors.not_covers {it m : MemoryMap} (h : Mirrors u (it :: maps) e) (hm : m ∈ maps)
    {a : Word} (ha : m.Covers a) : ¬ it.Covers a := by
  intro hc
  have hapart := (List.pairwise_cons.mp h.list.laid.apart).1 m hm
  exact hapart.not_mem (MemoryMap.covers_iff.mp hc) (MemoryMap.covers_iff.mp ha)

/-- Mapping an entry apart from the others adds it to the engine. -/
theorem Mirrors.add (hu : u.ActsOnRange) (h : Mirrors u maps e) {it : MemoryMap}
    (hapart : ∀ m ∈ maps, it.Apart m) (hpages : WholePages it.start it.end_)
    (hsized : (it.end_ - it.start) + 1 ≠ 0) :
    Mirrors u (it :: maps)
      (u.memMapPtr e it.start ((it.end_ - it.start) + 1) (permsOf it.protection)) := by
  have hin : ∀ a, InRange it.start ((it.end_ - it.start) + 1) a ↔ it.Covers a :=
    fun a => hpages.inRange_iff hsized
  have hfree : ∀ a, it.Covers a → ∀ m ∈ maps, ¬ m.Covers a := by
    intro a ha m hm hc
    exact (hapart m hm).not_mem (MemoryMap.covers_iff.mp ha) (MemoryMap.covers_iff.mp hc)
  refine ⟨⟨h.list.laid.cons hpages.ordered hapart, ?_, ?_⟩, ?_, ?_⟩
  · intro m hm
    rcases List.mem_cons.mp hm with rfl | hm
    · exact hpages
    · exact h.list.pages m hm
  · intro m hm
    rcases List.mem_cons.mp hm with rfl | hm
    · exact hsized
    · exact h.list.sized m hm
  · intro m hm a ha
    rcases List.mem_cons.mp hm with rfl | hm
    · refine hu.map_inside e _ _ _ hpages.pageRange (fun b hb => ?_) a ((hin a).mpr ha)
      exact h.uncovered b (hfree b ((hin b).mp hb))
    · rw [hu.map_outside e _ _ _ a hpages.pageRange fun hr => hfree a ((hin a).mp hr) m hm ha]
      exact h.covered m hm a ha
  · intro a ha
    have hout : ¬ InRange it.start ((it.end_ - it.start) + 1) a :=
      fun hr => ha it List.mem_cons_self ((hin a).mp hr)
    rw [hu.map_outside e _ _ _ a hpages.pageRange hout]
    exact h.uncovered a fun m hm => ha m (List.mem_cons_of_mem _ hm)

/-- Unmapping exactly an entry removes it from the engine. -/
theorem Mirrors.remove (hu : u.ActsOnRange) {it : MemoryMap} (h : Mirrors u (it :: maps) e) :
    Mirrors u maps (u.memUnmap e it.start ((it.end_ - it.start) + 1)) := by
  have hpages := h.list.pages it List.mem_cons_self
  have hin : ∀ a, InRange it.start ((it.end_ - it.start) + 1) a ↔ it.Covers a :=
    fun a => h.list.inRange_iff List.mem_cons_self
  refine ⟨⟨⟨?_, (List.pairwise_cons.mp h.list.laid.apart).2⟩, ?_, ?_⟩, ?_, ?_⟩
  · exact fun m hm => h.list.laid.ordered m (List.mem_cons_of_mem _ hm)
  · exact fun m hm => h.list.pages m (List.mem_cons_of_mem _ hm)
  · exact fun m hm => h.list.sized m (List.mem_cons_of_mem _ hm)
  · intro m hm a ha
    have hout : ¬ InRange it.start ((it.end_ - it.start) + 1) a :=
      fun hr => h.not_covers hm ha ((hin a).mp hr)
    rw [hu.unmap_outside e _ _ a hpages.pageRange hout]
    exact h.covered m (List.mem_cons_of_mem _ hm) a ha
  · intro a ha
    by_cases hc : it.Covers a
    · refine hu.unmap_inside e _ _ hpages.pageRange (fun b hb => ?_) a ((hin a).mpr hc)
      rw [h.covered it List.mem_cons_self b ((hin b).mp hb)]
      exact Option.some_ne_none _
    · refine hu.unmap_none e _ _ a hpages.pageRange (h.uncovered a fun m hm => ?_)
      rcases List.mem_cons.mp hm with rfl | hm
      · exact hc
      · exact ha m hm

/-- Unmapping a range that no entry meets changes nothing. -/
theorem Mirrors.unmap_free (hu : u.ActsOnRange) (h : Mirrors u maps e) {start end_ : Word}
    (hpages : WholePages start end_)
    (hfree : (end_ - start) + 1 = 0 ∨ ∀ it ∈ maps, ¬ Meets it start end_) :
    Mirrors u maps (u.memUnmap e start ((end_ - start) + 1)) := by
  refine ⟨h.list, fun it hit a ha => ?_, fun a ha => ?_⟩
  · have hout : ¬ InRange start ((end_ - start) + 1) a := by
      intro hr
      rcases hfree with hz | hfree
      · exact not_inRange_zero hz hr
      · by_cases hz : (end_ - start) + 1 = 0
        · exact not_inRange_zero hz hr
        · exact hfree it hit ⟨a, (hpages.inRange_iff hz).mp hr, ha⟩
    rw [hu.unmap_outside e _ _ a hpages.pageRange hout]
    exact h.covered it hit a ha
  · exact hu.unmap_none e _ _ a hpages.pageRange (h.uncovered a ha)

/-! ### Protection -/

@[simp] theorem protectEntry_start (start end_ : Word) (protection : ProtectionType)
    (i : MemoryMap) : (protectEntry start end_ protection i).start = i.start := by
  unfold protectEntry
  split <;> rfl

@[simp] theorem protectEntry_end (start end_ : Word) (protection : ProtectionType)
    (i : MemoryMap) : (protectEntry start end_ protection i).end_ = i.end_ := by
  unfold protectEntry
  split <;> rfl

theorem protectEntry_covers {start end_ a : Word} {protection : ProtectionType}
    {i : MemoryMap} : (protectEntry start end_ protection i).Covers a ↔ i.Covers a := by
  rw [MemoryMap.Covers, MemoryMap.Covers, protectEntry_start, protectEntry_end]

theorem Replayable.protect (h : Replayable maps) (start end_ : Word)
    (protection : ProtectionType) :
    Replayable (maps.map (protectEntry start end_ protection)) := by
  refine ⟨⟨?_, ?_⟩, ?_, ?_⟩
  · intro m hm
    obtain ⟨it, hit, rfl⟩ := List.mem_map.mp hm
    rw [protectEntry_start, protectEntry_end]
    exact h.laid.ordered it hit
  · refine List.pairwise_map.mpr (h.laid.apart.imp fun {a b} hab => ?_)
    simpa only [MemoryMap.Apart, Intervals.Apart, Intervals.span, MemoryMap.lo, MemoryMap.hi,
      protectEntry_start, protectEntry_end] using hab
  · intro m hm
    obtain ⟨it, hit, rfl⟩ := List.mem_map.mp hm
    rw [protectEntry_start, protectEntry_end]
    exact h.pages it hit
  · intro m hm
    obtain ⟨it, hit, rfl⟩ := List.mem_map.mp hm
    rw [protectEntry_start, protectEntry_end]
    exact h.sized it hit

/-- When is a change of protection the same to the list and to the engine: the entry is
exactly the range, or has these permissions already, or does not meet the range. -/
def ProtectsWhole (it : MemoryMap) (start end_ : Word) (protection : ProtectionType) : Prop :=
  (it.start = start ∧ it.end_ = end_) ∨ permsOf it.protection = permsOf protection ∨
    ¬ Meets it start end_

/-- The permissions of an entry after the change, under that condition. -/
theorem ProtectsWhole.permsOf {it : MemoryMap} {start end_ : Word} {protection : ProtectionType}
    (h : ProtectsWhole it start end_ protection) (hord : start ≤ end_) :
    Processor.permsOf (protectEntry start end_ protection it).protection =
      if it.start = start ∧ it.end_ = end_ then Processor.permsOf protection
      else Processor.permsOf it.protection := by
  unfold protectEntry
  by_cases hends : (start ≥ it.start ∧ start ≤ it.end_) ∧ (end_ ≥ it.start ∧ end_ ≤ it.end_)
  · rw [if_pos hends]
    split
    · rfl
    · rename_i hne
      rcases h with heq | hperms | hmeets
      · exact absurd heq hne
      · exact hperms.symm
      · exact absurd ⟨start, ⟨BitVec.le_refl _, hord⟩, hends.1⟩ hmeets
  · rw [if_neg hends]
    split
    · rename_i heq
      obtain ⟨rfl, rfl⟩ := heq
      exact absurd ⟨⟨BitVec.le_refl _, hord⟩, hord, BitVec.le_refl _⟩ hends
    · rfl

/-- Protecting a range where list and engine do the same keeps the agreement. -/
theorem Mirrors.protect (hu : u.ActsOnRange) (h : Mirrors u maps e) {start end_ : Word}
    {protection : ProtectionType} (hpages : WholePages start end_)
    (hwhole : (end_ - start) + 1 = 0 ∨ ∀ it ∈ maps, ProtectsWhole it start end_ protection) :
    Mirrors u (maps.map (protectEntry start end_ protection))
      (u.memProtect e start ((end_ - start) + 1) (Processor.permsOf protection)) := by
  refine ⟨h.list.protect .., fun m hm a ha => ?_, fun a ha => ?_⟩
  · obtain ⟨it, hit, rfl⟩ := List.mem_map.mp hm
    have hc := protectEntry_covers.mp ha
    have hold := h.covered it hit a hc
    by_cases hz : (end_ - start) + 1 = 0
    · -- an entry that holds both ends of the address space would be all of it
      have hends : ¬ ((start ≥ it.start ∧ start ≤ it.end_) ∧
          (end_ ≥ it.start ∧ end_ ≤ it.end_)) := by
        intro hends
        have hsized := h.list.sized it hit
        have hord := hpages.ordered
        apply hsized
        bv_omega
      rw [hu.protect_outside e _ _ _ a hpages.pageRange (not_inRange_zero hz), hold,
        protectEntry, if_neg hends]
    · have hp := hwhole.resolve_left hz it hit
      have hin := hpages.inRange_iff (a := a) hz
      rw [hp.permsOf hpages.ordered]
      split
      · rename_i heq
        obtain ⟨rfl, rfl⟩ := heq
        refine hu.protect_inside e _ _ _ hpages.pageRange (fun b hb => ?_) a (hin.mpr hc)
        rw [h.covered it hit b ((hpages.inRange_iff hz).mp hb)]
        exact Option.some_ne_none _
      · rename_i hne
        rcases hp with heq | hperms | hmeets
        · exact absurd heq hne
        · rcases hu.protect_part e start _ (Processor.permsOf protection) a
            hpages.pageRange with hsame | ⟨_, hnew⟩
          · rw [hsame, hold]
          · rw [hnew, hperms]
        · have hout : ¬ InRange start ((end_ - start) + 1) a :=
            fun hr => hmeets ⟨a, hin.mp hr, hc⟩
          rw [hu.protect_outside e _ _ _ a hpages.pageRange hout, hold]
  · have hold := h.uncovered a fun it hit hc =>
      ha _ (List.mem_map_of_mem hit) (protectEntry_covers.mpr hc)
    rcases hu.protect_part e start ((end_ - start) + 1) (Processor.permsOf protection) a
      hpages.pageRange with hsame | ⟨hne, _⟩
    · rw [hsame, hold]
    · exact absurd hold hne

/-! ### Loops over the list -/

/-- `unmap_memory_all` empties the engine. -/
theorem Mirrors.unmapAll (hu : u.ActsOnRange) (h : Mirrors u maps e) :
    ∃ e', maps.foldl (fun engine i => unmapMemoryFromApi u engine i.start i.end_) (some e) =
      some e' ∧ Mirrors u [] e' := by
  induction maps generalizing e with
  | nil => exact ⟨e, rfl, h⟩
  | cons it maps ih => exact ih (h.remove hu)

/-- The replay maps every entry. -/
theorem Mirrors.replay (hu : u.ActsOnRange) {rest : List MemoryMap} (h : Mirrors u maps e)
    (hall : Replayable (rest ++ maps)) :
    ∃ e', rest.foldl (fun engine i => mapMemoryFromApi u engine i.start i.end_ i.protection)
      (some e) = some e' ∧ Mirrors u (rest ++ maps) e' := by
  induction rest generalizing maps e with
  | nil => exact ⟨e, rfl, h⟩
  | cons it rest ih =>
    have hmem : it ∈ it :: rest ++ maps := List.mem_cons_self
    have hmove : (it :: rest ++ maps).Perm (rest ++ it :: maps) := List.perm_middle.symm
    have hapart : ∀ m ∈ maps, it.Apart m := fun m hm =>
      (List.pairwise_cons.mp hall.laid.apart).1 m (List.mem_append_right _ hm)
    have hadd := h.add hu hapart (hall.pages it hmem) (hall.sized it hmem)
    obtain ⟨e', hfold, hmirrors⟩ := ih hadd
      { laid := hall.laid.of_perm hmove
        pages := fun m hm => hall.pages m (hmove.mem_iff.mpr hm)
        sized := fun m hm => hall.sized m (hmove.mem_iff.mpr hm) }
    exact ⟨e', hfold, hmirrors.of_perm hmove.symm⟩

end Mirrors

/-! ## Runs -/

section Run

variable {E : Type} {u : Unicorn E}

/-- The calls under which list and engine stay together, on ranges of whole pages:
mapping what meets no entry and is not the whole address space, unmapping what meets no
entry, unmapping everything, and protecting what is whole entries. -/
def Host.Admits (h : Host E) : MapCall → Prop
  | .mapMemory _ start end_ _ => WholePages start end_ ∧ (end_ - start) + 1 ≠ 0 ∧
      ∀ it ∈ h.memoryMapList, ¬ Meets it start end_
  | .unmapMemory start end_ => WholePages start end_ ∧
      ((end_ - start) + 1 = 0 ∨ ∀ it ∈ h.memoryMapList, ¬ Meets it start end_)
  | .unmapMemoryAll => True
  | .changeProtection start end_ protection => WholePages start end_ ∧
      ((end_ - start) + 1 = 0 ∨
        ∀ it ∈ h.memoryMapList, ProtectsWhole it start end_ protection)

def HostStep (u : Unicorn E) (h : Host E) (call : MapCall) (h' : Host E) : Prop :=
  h.Admits call ∧ h' = h.perform u call

/-- The invariant of a run. -/
def Host.Inv (u : Unicorn E) (h : Host E) : Prop :=
  ∃ e, h.engine = some e ∧ Mirrors u h.memoryMapList e

theorem Host.Inv.agrees {h : Host E} (hinv : h.Inv u) : h.Agrees u := by
  obtain ⟨e, he, hm⟩ := hinv
  refine ⟨e, he, fun a q => ⟨fun hv => ?_, ?_⟩⟩
  · by_cases hc : ∃ it ∈ h.memoryMapList, it.Covers a
    · obtain ⟨it, hit, hcov⟩ := hc
      rw [hm.covered it hit a hcov] at hv
      exact ⟨it, hit, hcov, Option.some.inj hv⟩
    · rw [hm.uncovered a fun it hit hcov => hc ⟨it, hit, hcov⟩] at hv
      cases hv
  · rintro ⟨it, hit, hcov, rfl⟩
    exact hm.covered it hit a hcov

theorem Host.Inv.perform (hu : u.ActsOnRange) {h : Host E} (hinv : h.Inv u) {call : MapCall}
    (hadmits : h.Admits call) : (h.perform u call).Inv u := by
  obtain ⟨e, he, hm⟩ := hinv
  cases call with
  | mapMemory name start end_ protection =>
    obtain ⟨hpages, hsized, hfree⟩ := hadmits
    have hapart : ∀ m ∈ h.memoryMapList, (MemoryMap.fresh name start end_ protection).Apart m :=
      fun m hm' => MemoryMap.apart_of_not_covers fun a ha hc => hfree m hm' ⟨a, ha, hc⟩
    have hadd := hm.add hu hapart hpages hsized
    refine ⟨_, ?_, hadd.of_perm (mapMemory_perm ..).symm⟩
    simp only [Host.perform, Host.mapMemory, mapMemoryFromApi, he, Option.map_some]
    rfl
  | unmapMemory start end_ =>
    refine ⟨_, ?_, hm.unmap_free hu hadmits.1 hadmits.2⟩
    simp only [Host.perform, Host.unmapMemory, unmapMemoryFromApi, he, Option.map_some]
  | unmapMemoryAll =>
    obtain ⟨e', hfold, hnil⟩ := hm.unmapAll hu
    refine ⟨e', ?_, hnil⟩
    simp only [Host.perform, Host.unmapMemoryAll, he, hfold]
  | changeProtection start end_ protection =>
    refine ⟨_, ?_, hm.protect hu hadmits.1 hadmits.2⟩
    simp only [Host.perform, Host.changeProtection, changeProtectionFromApi, he, Option.map_some]

/-- With the engine open and the list replayed into it, list and engine agree after
every run of such calls. -/
theorem host_engine_agree_run (hu : u.ActsOnRange) {maps : List MemoryMap} (hmaps : Replayable maps)
    {e : E} (hempty : ∀ a, u.view e a = none) {calls : List MapCall} {h : Host E}
    (hrun : Steps (HostStep u) (replay u e maps) calls h) : h.Agrees u := by
  have hinit : (replay u e maps).Inv u := by
    have hall : Replayable (maps ++ []) := (List.append_nil maps).symm ▸ hmaps
    obtain ⟨e', hfold, hm⟩ := (Mirrors.nil hempty).replay hu hall
    rw [List.append_nil] at hm
    exact ⟨e', hfold, hm⟩
  have hinv : h.Inv u :=
    hrun.invariant (fun _ _ _ hi hstep => hstep.2 ▸ hi.perform hu hstep.1) hinit
  exact hinv.agrees

end Run

/-- An engine that is nothing but its view. -/
def flatEngine : Unicorn (Word → Option Perms) where
  memMapPtr e start size perms := fun a => if InRange start size a then some perms else e a
  memUnmap e start size := fun a => if InRange start size a then none else e a
  memProtect e start size perms := fun a =>
    if InRange start size a then (e a).map fun _ => perms else e a
  view e := e

theorem flatEngine_actsOnRange : flatEngine.ActsOnRange where
  map_inside e start size perms _ _ a ha := if_pos ha
  map_outside e start size perms a _ ha := if_neg ha
  unmap_inside e start size _ _ a ha := if_pos ha
  unmap_outside e start size a _ ha := if_neg ha
  unmap_none e start size a _ hnone := by
    show (if InRange start size a then none else e a) = none
    split
    · rfl
    · exact hnone
  protect_inside e start size perms _ hmapped a ha := by
    obtain ⟨q, hq⟩ := Option.ne_none_iff_exists'.mp (hmapped a ha)
    have hview : e a = some q := hq
    show (if InRange start size a then (e a).map fun _ => perms else e a) = some perms
    rw [if_pos ha, hview]
    rfl
  protect_outside e start size perms a _ ha := if_neg ha
  protect_part e start size perms a _ := by
    show (if InRange start size a then (e a).map fun _ => perms else e a) = e a ∨
      e a ≠ none ∧ (if InRange start size a then (e a).map fun _ => perms else e a) = some perms
    split
    · cases e a with
      | none => exact .inl rfl
      | some q => exact .inr ⟨Option.some_ne_none q, rfl⟩
    · exact .inl rfl

/-- The code heap of `main`, two pages that may be read and written. -/
def codeHeap : List MemoryMap :=
  [.fresh "heap" 0x60000000#32 0x60001FFF#32 (PROTECTION_TYPE_READ ||| PROTECTION_TYPE_WRITE)]

theorem codeHeap_replayable : Replayable codeHeap where
  laid := Laid.nil.cons (by decide) (by simp)
  pages := fun it hit => by
    obtain rfl := List.mem_singleton.mp hit
    exact ⟨by decide, by decide, by decide⟩
  sized := fun it hit => by
    obtain rfl := List.mem_singleton.mp hit
    decide

/-- Making the whole heap executable keeps the agreement. -/
theorem host_engine_agree_protect :
    ((replay flatEngine (fun _ => none) codeHeap).perform flatEngine
      (.changeProtection 0x60000000#32 0x60001FFF#32 7#8)).Agrees flatEngine := by
  have hadmits : (replay flatEngine (fun _ => none) codeHeap).Admits
      (.changeProtection 0x60000000#32 0x60001FFF#32 7#8) := by
    refine ⟨⟨by decide, by decide, by decide⟩, .inr fun it hit => ?_⟩
    obtain rfl := List.mem_singleton.mp hit
    exact .inl ⟨rfl, rfl⟩
  exact host_engine_agree_run flatEngine_actsOnRange codeHeap_replayable (fun _ => rfl)
    (.snoc .nil ⟨hadmits, rfl⟩)

/-- `unmap_memory` of an entry empties the engine and leaves the entry in the list. -/
theorem unmapMemory_keeps_entry :
    ¬ ((replay flatEngine (fun _ => none) codeHeap).perform flatEngine
      (.unmapMemory 0x60000000#32 0x60001FFF#32)).Agrees flatEngine := by
  intro h
  obtain ⟨e, he, hagree⟩ := h
  have hview : flatEngine.view e 0x60000000#32 = none := by
    cases he
    rfl
  have hmem := (hagree 0x60000000#32 3#32).mpr ⟨_, List.mem_singleton_self _, by decide, by decide⟩
  rw [hview] at hmem
  cases hmem

end Betavita.Processor
