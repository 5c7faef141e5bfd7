import Betavita.Loader.ImportLinking
import Betavita.Loader.TableWalk

/-!
# Which imports are accepted

What an image asks for is read off the memory it is loaded into: the tables that a descriptor
counts, and no others. The round asks for more and for less: both function tables whatever
their count, the variable tables whenever both are given, and none if one of them is not.
It also looks at the memory as it finds it, with the stubs of the functions before.
-/

namespace Betavita.Loader

open Memory Hle CursorWalk CountedLoop Results

/-! ## What a descriptor asks for -/

/-- The function tables and every listed stub, in the memory there is at each function. -/
def FunctionsLinkable (mem : Nat → List MemoryMap) (imports : ModuleImports) : Prop :=
  Mapped (mem 0) imports.funcNidTable ∧
    ∃ entryAddr, getPointerUnchecked (mem 0) imports.funcEntryTable = some entryAddr ∧
      ∀ i < imports.numSymsFuncs.toNat, FunctionMapped (mem i) (entryAddr.add (4 * i))

/-- The variable tables and every listed record, which has relocation size 0. -/
def VariablesLinkable (maps : List MemoryMap) (imports : ModuleImports) : Prop :=
  Mapped maps imports.varNidTable ∧
    ∃ entryAddr, getPointerUnchecked maps imports.varEntryTable = some entryAddr ∧
      ∀ j < imports.numSymsVars.toNat, VariablePlain maps (entryAddr.add (4 * j))

/-- The address has a descriptor of size 0x34. -/
def HasDescriptor (maps : List MemoryMap) (address : Word) (imports : ModuleImports) : Prop :=
  ∃ import_, getPointerUnchecked maps address = some import_ ∧
    readHalf maps import_ = .ok 0x34#16 ∧ readModuleImports maps import_ = .ok imports

/-- The descriptor at the address can be linked: what it counts is mapped. -/
def DescriptorLinkable (maps : List MemoryMap) (address : Word) : Prop :=
  ∃ imports, HasDescriptor maps address imports ∧
    (0 < imports.numSymsFuncs.toNat → FunctionsLinkable (fun _ => maps) imports) ∧
    (0 < imports.numSymsVars.toNat → VariablesLinkable maps imports)

/-- Descriptor `k` starts in `[import_top, import_end)`. -/
def ImportTable.InRange (t : ImportTable) (k : Nat) : Prop :=
  t.importTop.toNat + 0x34 * k < t.importEnd.toNat

/-- `add_module_imports` returns, and it returns `true` if and only if every descriptor of
`[import_top, import_end)` can be linked. -/
def AcceptsLinkable (modinfo : HostPtr) (baseAddress : Word) (maps : List MemoryMap)
    (modules : List RuntimeModule) : Prop :=
  ∃ t fuel flag maps' modules', readImportTable maps modinfo baseAddress = .ok t ∧
    addModuleImports fuel modinfo baseAddress maps modules = .ok (flag, maps', modules') ∧
    (flag = true ↔ ∀ k, t.InRange k → DescriptorLinkable maps (t.address k))

/-! ## The memory a round finds -/

/-- What function `i` of a descriptor leaves of the memory. -/
def afterStub (imports : ModuleImports) (i : Nat) (maps : List MemoryMap) : List MemoryMap :=
  match getPointerUnchecked maps imports.funcNidTable,
    getPointerUnchecked maps imports.funcEntryTable with
  | some nid, some entryAddr =>
    match functionTurn nid entryAddr i ([], maps) with
    | .ok (s, _) => s.2
    | .error _ => maps
  | _, _ => maps

/-- The memory after the first functions of a descriptor. -/
def afterStubs (imports : ModuleImports) (maps : List MemoryMap) : Nat → List MemoryMap
  | 0 => maps
  | i + 1 => afterStub imports i (afterStubs imports maps i)

/-- The memory in which the walk finds descriptor `k`. -/
def foundMemory (maps : List MemoryMap) (t : ImportTable) : Nat → List MemoryMap
  | 0 => maps
  | k + 1 =>
    match loadModuleImports (foundMemory maps t k) (t.address k) with
    | none => foundMemory maps t k
    | some imports => afterStubs imports (foundMemory maps t k) imports.numSymsFuncs.toNat

section Found

variable {maps : List MemoryMap} {imports : ModuleImports} {nid entryAddr : HostPtr}

/-- The memory the loop finds is the one the functions before leave. -/
theorem FindsFunction.eq_afterStubs
    (hnid : getPointerUnchecked maps imports.funcNidTable = some nid)
    (hentry : getPointerUnchecked maps imports.funcEntryTable = some entryAddr) {i : Nat}
    {m : List MemoryMap} (h : FindsFunction maps nid entryAddr i m) :
    m = afterStubs imports maps i ∧ SameMaps maps m := by
  obtain ⟨fs, hgets⟩ := h
  induction i generalizing fs m with
  | zero =>
    cases hgets.unique .start
    exact ⟨rfl, .refl _⟩
  | succ i ih =>
    cases hgets with
    | @step _ s _ hgets hturn =>
      obtain ⟨fs₀, m₀⟩ := s
      obtain ⟨hm₀, hsame⟩ := ih fs₀ hgets
      obtain ⟨hkept, hany⟩ := functionTurn_memory hturn
      obtain ⟨gs, hturn'⟩ := hany []
      refine ⟨?_, hsame.trans hkept⟩
      rw [afterStubs, ← hm₀, afterStub, ← hsame.getPointerUnchecked, ← hsame.getPointerUnchecked,
        hnid, hentry]
      simp only [hturn']

end Found

/-! ## The walk, descriptor by descriptor -/

/-- The round on descriptor `k` reads what is mapped, and accepts it. -/
structure PassesDescriptor (maps : List MemoryMap) (t : ImportTable) (k : Nat) : Prop where
  below : t.start k < t.importEnd
  reads : ImportReads (foundMemory maps t k) (t.address k)
  accepted : ImportAccepted (foundMemory maps t k) (t.address k)

/-- The walk passes `k` descriptors and stops: it refuses the next, or it is at the end and reads
the name and the NID of the module. What it reads is mapped. -/
structure StopsAt (modinfo : HostPtr) (maps : List MemoryMap) (t : ImportTable) (k : Nat) :
    Prop where
  passes : ∀ j < k, PassesDescriptor maps t j
  refused : t.start k < t.importEnd → ImportReads (foundMemory maps t k) (t.address k) ∧
    ¬ ImportAccepted (foundMemory maps t k) (t.address k)
  info : ¬ t.start k < t.importEnd →
    (∃ libraryName,
      readCString (foundMemory maps t k) (some (modinfo.add 0x04)) = .ok libraryName) ∧
    InBuffer (foundMemory maps t k) (modinfo.add 0x34) 4

section Walk

variable {modinfo : HostPtr} {maps : List MemoryMap} {modules : List RuntimeModule}
  {t : ImportTable} {k : Nat}

/-- A round that accepts descriptor `k` leaves the memory that the next is found in. -/
theorem importRound_memory {libraries : List FunctionImportLibrary}
    {s : List FunctionImportLibrary × List MemoryMap} {size : Word}
    (h : importRound t.baseAddress (t.start k) (libraries, foundMemory maps t k) =
      .ok (s, some size)) : s.2 = foundMemory maps t (k + 1) := by
  unfold importRound at h
  cases hp : getPointerUnchecked (foundMemory maps t k) (t.baseAddress + t.start k) with
  | none =>
    simp only [hp] at h
    cases h
  | some import_ =>
    simp only [hp] at h
    obtain ⟨⟨library, m⟩, hlibrary, h⟩ := map_ok.mp h
    cases library with
    | none => cases h
    | some library =>
      cases h
      rcases importLibrary_cases hlibrary with ⟨hnone, _⟩ |
        ⟨imports, nid, entryAddr, _, _, himports, hnid, hentry, _, hfunctions, haccept⟩
      · cases hnone
      · obtain ⟨fs, rfl, _⟩ := haccept library rfl
        have hload : loadModuleImports (foundMemory maps t k) (t.address k) = some imports := by
          rw [loadModuleImports, ImportTable.address, hp, Option.bind_some, himports]
          rfl
        have hfinds : FindsFunction (foundMemory maps t k) nid entryAddr
            imports.numSymsFuncs.toNat m := by
          rw [importFunctions_zero] at hfunctions
          obtain ⟨⟨⟨fs', m'⟩, goesOn⟩, hturns, heq⟩ := map_ok.mp hfunctions
          cases goesOn with
          | false => cases heq
          | true =>
            cases heq
            exact findsFunction_iff.mpr ⟨_, hturns⟩
        show m = foundMemory maps t (k + 1)
        rw [foundMemory, hload]
        exact (hfinds.eq_afterStubs hnid hentry).1

/-- The walk gets to the descriptors before which all pass, in the memory they are found in. -/
theorem reaches_of_passes (h : ∀ j < k, PassesDescriptor maps t j) :
    ∃ libraries, Reaches (importRound t.baseAddress) t.importEnd t.importTop ([], maps)
      (t.start k) (libraries, foundMemory maps t k) := by
  induction k with
  | zero =>
    have hstart : t.start 0 = t.importTop := by simp [ImportTable.start]
    exact ⟨[], hstart ▸ .start⟩
  | succ k ih =>
    obtain ⟨libraries, hreach⟩ := ih fun j hj => h j (Nat.lt_succ_of_lt hj)
    obtain ⟨hlt, hreads, haccepted⟩ := h k (Nat.lt_succ_self k)
    obtain ⟨⟨libraries', m⟩, hround⟩ :=
      (importRound_some_iff libraries hreads).mpr haccepted
    have hm := importRound_memory hround
    refine ⟨libraries', ?_⟩
    rw [← hm, t.start_succ]
    exact hreach.step hlt hround

theorem passes_of_reaches {cursor : Word} {s : List FunctionImportLibrary × List MemoryMap}
    (h : Reaches (importRound t.baseAddress) t.importEnd t.importTop ([], maps) cursor s) :
    ∃ k, cursor = t.start k ∧ s.2 = foundMemory maps t k ∧ ∀ j < k, PassesDescriptor maps t j := by
  induction h with
  | start => exact ⟨0, by simp [ImportTable.start], rfl, fun j hj => absurd hj (Nat.not_lt_zero j)⟩
  | @step cursor s s' size _ hlt hround ih =>
    obtain ⟨k, rfl, hm, hpasses⟩ := ih
    obtain ⟨libraries, m⟩ := s
    obtain rfl : m = foundMemory maps t k := hm
    cases importRound_size hround
    have hreads := (importRound_isOk_iff libraries).mp ⟨_, hround⟩
    have haccepted := (importRound_some_iff libraries hreads).mp ⟨_, hround⟩
    refine ⟨k + 1, (t.start_succ k).symm, importRound_memory hround, fun j hj => ?_⟩
    rcases Nat.lt_or_eq_of_le (Nat.le_of_lt_succ hj) with hlt' | rfl
    · exact hpasses j hlt'
    · exact ⟨hlt, hreads, haccepted⟩

/-- The call returns exactly when the walk stops, with `true` if it is at the end there. -/
theorem addModuleImports_returns_iff (modules : List RuntimeModule) (flag : Bool)
    (htop : readWord maps (modinfo.add 0x2C) = .ok t.importTop)
    (hend : readWord maps (modinfo.add 0x30) = .ok t.importEnd) :
    (∃ fuel maps' modules', addModuleImports fuel modinfo t.baseAddress maps modules =
      .ok (flag, maps', modules')) ↔
    ∃ k, StopsAt modinfo maps t k ∧ (flag = true ↔ ¬ t.start k < t.importEnd) := by
  constructor
  · intro h
    obtain ⟨fuel, maps', modules', hcall⟩ := h
    rw [addModuleImports_eq htop hend] at hcall
    obtain ⟨⟨walked, s⟩, hwalk, hcall⟩ := bind_ok.mp hcall
    obtain ⟨records, hrun⟩ := Run.of_walk hwalk
    cases walked with
    | true =>
      obtain ⟨cursor, hreach, hge⟩ := hrun.reaches_end
      obtain ⟨k, rfl, hm, hpasses⟩ := passes_of_reaches hreach
      obtain ⟨libraryName, hname, hcall⟩ := bind_ok.mp hcall
      obtain ⟨nid, hnid, hcall⟩ := bind_ok.mp hcall
      cases hcall
      rw [hm] at hname hnid
      exact ⟨k, ⟨hpasses, fun hlt => absurd hlt hge,
        fun _ => ⟨⟨libraryName, hname⟩, readWord_isOk_iff.mp ⟨nid, hnid⟩⟩⟩, by simpa using hge⟩
    | false =>
      cases hcall
      obtain ⟨cursor, ⟨libraries, m⟩, hreach, hlt, hround⟩ := hrun.exists_refused
      obtain ⟨k, rfl, hm, hpasses⟩ := passes_of_reaches hreach
      obtain rfl : m = foundMemory maps t k := hm
      have hreads := (importRound_isOk_iff libraries).mp ⟨_, hround⟩
      exact ⟨k, ⟨hpasses, fun _ => ⟨hreads, (importRound_none_iff libraries hreads).mp ⟨s, hround⟩⟩,
        fun hge => absurd hlt hge⟩, by simpa using hlt⟩
  · intro h
    obtain ⟨k, ⟨hpasses, hrefused, hinfo⟩, hflag⟩ := h
    obtain ⟨libraries, hreach⟩ := reaches_of_passes hpasses
    by_cases hlt : t.start k < t.importEnd
    · obtain ⟨hreads, hno⟩ := hrefused hlt
      obtain ⟨s, hround⟩ := (importRound_none_iff libraries hreads).mpr hno
      obtain ⟨records, hrun⟩ := hreach.prepend (.refused hlt hround)
      have hfalse : flag = false := by simpa [hlt] using hflag
      refine ⟨records.length + 1, s.2, modules, ?_⟩
      rw [addModuleImports_eq htop hend, hrun.walk Trap.outOfFuel, hfalse]
      rfl
    · obtain ⟨⟨libraryName, hname⟩, hin⟩ := hinfo hlt
      obtain ⟨nid, hnid⟩ := readWord_isOk_iff.mpr hin
      obtain ⟨records, hrun⟩ := hreach.prepend (.done hlt)
      have htrue : flag = true := by simpa [hlt] using hflag
      refine ⟨records.length + 1, foundMemory maps t k,
        addRuntimeModule modules ⟨libraryName, nid, libraries⟩, ?_⟩
      rw [addModuleImports_eq htop hend, hrun.walk Trap.outOfFuel, htrue, ok_bind]
      simp only [if_true, hname, ok_bind, hnid]
      rfl

/-- A walk that stops at its end has passed all descriptors of the table. -/
theorem StopsAt.all_iff (h : StopsAt modinfo maps t k) : ¬ t.start k < t.importEnd ↔
    ∀ j, t.Has j → ImportAccepted (foundMemory maps t j) (t.address j) := by
  constructor
  · intro hge j hhas
    have hj : j < k := by
      by_contra hle
      exact hge (hhas k (Nat.le_of_not_lt hle))
    exact (h.passes j hj).accepted
  · intro hall hlt
    have hhas : t.Has k := by
      intro j hj
      rcases Nat.lt_or_eq_of_le hj with hlt' | rfl
      · exact (h.passes j hlt').below
      · exact hlt
    exact (h.refused hlt).2 (hall k hhas)

/-- The descriptors of `[import_top, import_end)` are descriptors of the table. -/
theorem ImportTable.InRange.has (h : t.InRange k) : t.Has k := by
  intro j hj
  have hend := t.importEnd.isLt
  have hk : t.importTop.toNat + 0x34 * k < t.importEnd.toNat := h
  show (t.start j).toNat < t.importEnd.toNat
  rw [ImportTable.start, BitVec.toNat_add, BitVec.toNat_ofNat]
  omega

end Walk

/-! ## What the round asks for instead -/

/-- What the image and the round both ask for: the tables that are counted, and given. -/
def Tested (mem : Nat → List MemoryMap) (imports : ModuleImports) : Prop :=
  (0 < imports.numSymsFuncs.toNat → FunctionsLinkable mem imports) ∧
  (0 < imports.numSymsVars.toNat → imports.varNidTable ≠ 0 → imports.varEntryTable ≠ 0 →
    VariablesLinkable (mem imports.numSymsFuncs.toNat) imports)

/-- Descriptor `k` as the image lists it. -/
def ListedTested (maps : List MemoryMap) (t : ImportTable) (k : Nat) : Prop :=
  ∃ imports, HasDescriptor maps (t.address k) imports ∧ Tested (fun _ => maps) imports

/-- Descriptor `k` as the walk finds it. -/
def FoundTested (maps : List MemoryMap) (t : ImportTable) (k : Nat) : Prop :=
  ∃ imports, HasDescriptor (foundMemory maps t k) (t.address k) imports ∧
    Tested (afterStubs imports (foundMemory maps t k)) imports

/-- Where the round asks for something else, it makes no difference: the stubs before change
nothing that is asked for; function tables without a function are mapped; variable tables that
are given without a variable are mapped; variables whose tables are not given can be linked. -/
structure Harmless (maps : List MemoryMap) (t : ImportTable) (k : Nat) : Prop where
  kept : FoundTested maps t k ↔ ListedTested maps t k
  functions : ∀ imports, HasDescriptor (foundMemory maps t k) (t.address k) imports →
    imports.numSymsFuncs.toNat = 0 → Mapped (foundMemory maps t k) imports.funcNidTable ∧
      Mapped (foundMemory maps t k) imports.funcEntryTable
  vars : ∀ imports, HasDescriptor (foundMemory maps t k) (t.address k) imports →
    imports.numSymsVars.toNat = 0 → imports.varNidTable ≠ 0 → imports.varEntryTable ≠ 0 →
      Mapped (foundMemory maps t k) imports.varNidTable ∧
        Mapped (foundMemory maps t k) imports.varEntryTable
  skipped : ∀ imports, HasDescriptor maps (t.address k) imports →
    0 < imports.numSymsVars.toNat → (imports.varNidTable = 0 ∨ imports.varEntryTable = 0) →
      VariablesLinkable maps imports

section Tests

variable {maps : List MemoryMap} {t : ImportTable} {k : Nat}

theorem HasDescriptor.unique {address : Word} {imports imports' : ModuleImports}
    (h : HasDescriptor maps address imports) (h' : HasDescriptor maps address imports') :
    imports = imports' := by
  obtain ⟨import_, hp, _, himports⟩ := h
  obtain ⟨import_', hp', _, himports'⟩ := h'
  cases hp.symm.trans hp'
  exact Except.ok.inj (himports.symm.trans himports')

/-- What a round that accepts descriptor `k` has found. -/
theorem PassesDescriptor.cases (h : PassesDescriptor maps t k) :
    ∃ imports nid entryAddr m, HasDescriptor (foundMemory maps t k) (t.address k) imports ∧
      getPointerUnchecked (foundMemory maps t k) imports.funcNidTable = some nid ∧
      getPointerUnchecked (foundMemory maps t k) imports.funcEntryTable = some entryAddr ∧
      (∀ i < imports.numSymsFuncs.toNat,
        FunctionMapped (afterStubs imports (foundMemory maps t k) i) (entryAddr.add (4 * i))) ∧
      m = afterStubs imports (foundMemory maps t k) imports.numSymsFuncs.toNat ∧
      SameMaps (foundMemory maps t k) m ∧ VariablesAccepted m imports := by
  obtain ⟨_, hreads, haccepted⟩ := h
  obtain ⟨import_, hp, hsize, imports, nid, entryAddr, himports, hnid, hentry, hfunctions,
    hvars⟩ := haccepted
  have htables := ((hreads import_ hp).2 hsize).2 imports nid entryAddr himports hnid hentry
  obtain ⟨⟨fs, m⟩, hturns⟩ :=
    (functionTurns_goesOn_iff (functionTurns_isOk_iff.mpr htables.functions)).mpr hfunctions
  have hfinds := findsFunction_iff.mpr ⟨fs, hturns⟩
  obtain ⟨hm, hsame⟩ := hfinds.eq_afterStubs hnid hentry
  refine ⟨imports, nid, entryAddr, m, ⟨import_, hp, hsize, himports⟩, hnid, hentry,
    fun i hi => ?_, hm, hsame, hvars m hfinds⟩
  -- the loop has got to function `i` on its way to the end
  obtain ⟨fs', hgets⟩ := hfinds
  obtain ⟨⟨gs, m'⟩, hbefore⟩ := hgets.before (Nat.zero_le i) (Nat.le_of_lt hi)
  have hfinds' : FindsFunction (foundMemory maps t k) nid entryAddr i m' := ⟨gs, hbefore⟩
  rw [← (hfinds'.eq_afterStubs hnid hentry).1]
  exact hfunctions i hi m' hfinds'

/-- A descriptor that is accepted meets what is asked for, as it is found. -/
theorem PassesDescriptor.foundTested (h : PassesDescriptor maps t k) : FoundTested maps t k := by
  obtain ⟨imports, nid, entryAddr, m, hdescriptor, hnid, hentry, hfunctions, hm, _, hvars⟩ :=
    h.cases
  refine ⟨imports, hdescriptor, fun _ => ?_, fun _ hnidTable hentryTable => ?_⟩
  · exact ⟨mapped_of_some hnid, entryAddr, hentry, hfunctions⟩
  · rw [← hm]
    exact hvars hnidTable hentryTable

/-- A descriptor that meets what is asked for, as it is found, is accepted if nothing else is
asked for. -/
theorem FoundTested.accepted (h : FoundTested maps t k) (hharmless : Harmless maps t k) :
    ImportAccepted (foundMemory maps t k) (t.address k) := by
  obtain ⟨imports, hdescriptor, hfunctions, hvars⟩ := h
  have htables : Mapped (foundMemory maps t k) imports.funcNidTable ∧
      ∃ entryAddr, getPointerUnchecked (foundMemory maps t k) imports.funcEntryTable =
        some entryAddr ∧ ∀ i < imports.numSymsFuncs.toNat,
          FunctionMapped (afterStubs imports (foundMemory maps t k) i) (entryAddr.add (4 * i)) := by
    rcases Nat.eq_zero_or_pos imports.numSymsFuncs.toNat with hzero | hpos
    · obtain ⟨hnid, hentry⟩ := hharmless.functions imports hdescriptor hzero
      obtain ⟨entryAddr, hentry⟩ := mapped_iff.mp hentry
      exact ⟨hnid, entryAddr, hentry, fun i hi => absurd hi (by omega)⟩
    · exact hfunctions hpos
  obtain ⟨hnid, entryAddr, hentry, hstubs⟩ := htables
  obtain ⟨nid, hnid⟩ := mapped_iff.mp hnid
  obtain ⟨import_, hp, hsize, himports⟩ := id hdescriptor
  refine ⟨import_, hp, hsize, imports, nid, entryAddr, himports, hnid, hentry, ?_, ?_⟩
  · intro i hi m hfinds
    rw [(hfinds.eq_afterStubs hnid hentry).1]
    exact hstubs i hi
  · intro m hfinds hnidTable hentryTable
    obtain ⟨hm, hsame⟩ := hfinds.eq_afterStubs hnid hentry
    rcases Nat.eq_zero_or_pos imports.numSymsVars.toNat with hzero | hpos
    · obtain ⟨hvarNid, hvarEntry⟩ :=
        hharmless.vars imports hdescriptor hzero hnidTable hentryTable
      obtain ⟨varEntry, hvarEntry⟩ :=
        mapped_iff.mp ((hsame.mapped _).mp hvarEntry)
      exact ⟨(hsame.mapped _).mp hvarNid, varEntry, hvarEntry, fun j hj => absurd hj (by omega)⟩
    · rw [hm]
      exact hvars hpos hnidTable hentryTable

/-- A descriptor that can be linked meets what is asked for, as it is listed. -/
theorem DescriptorLinkable.listedTested (h : DescriptorLinkable maps (t.address k)) :
    ListedTested maps t k := by
  obtain ⟨imports, hdescriptor, hfunctions, hvars⟩ := h
  exact ⟨imports, hdescriptor, hfunctions, fun hpos _ _ => hvars hpos⟩

theorem ListedTested.linkable (h : ListedTested maps t k) (hharmless : Harmless maps t k) :
    DescriptorLinkable maps (t.address k) := by
  obtain ⟨imports, hdescriptor, hfunctions, hvars⟩ := h
  refine ⟨imports, hdescriptor, hfunctions, fun hpos => ?_⟩
  by_cases hgiven : imports.varNidTable = 0 ∨ imports.varEntryTable = 0
  · exact hharmless.skipped imports hdescriptor hpos hgiven
  · obtain ⟨hnidTable, hentryTable⟩ := not_or.mp hgiven
    exact hvars hpos hnidTable hentryTable

/-- Where a descriptor can be linked and is accepted, there was no difference. -/
theorem PassesDescriptor.harmless (h : PassesDescriptor maps t k)
    (hlinkable : DescriptorLinkable maps (t.address k)) : Harmless maps t k where
  kept := iff_of_true h.foundTested hlinkable.listedTested
  functions := by
    intro imports hdescriptor _
    obtain ⟨imports', nid, entryAddr, _, hdescriptor', hnid, hentry, _⟩ := h.cases
    cases hdescriptor.unique hdescriptor'
    exact ⟨mapped_of_some hnid, mapped_of_some hentry⟩
  vars := by
    intro imports hdescriptor _ hnidTable hentryTable
    obtain ⟨imports', _, _, m, hdescriptor', _, _, _, _, hsame, hvars⟩ := h.cases
    cases hdescriptor.unique hdescriptor'
    obtain ⟨hvarNid, varEntry, hvarEntry, _⟩ := hvars hnidTable hentryTable
    exact ⟨(hsame.mapped _).mpr hvarNid, (hsame.mapped _).mpr (mapped_of_some hvarEntry)⟩
  skipped := by
    intro imports hdescriptor hpos _
    obtain ⟨imports', hdescriptor', _, hvars⟩ := hlinkable
    cases hdescriptor.unique hdescriptor'
    exact hvars hpos

/-- In a walk that stops, the round and the image agree on the whole table exactly when each
difference is harmless, or both find something to refuse. -/
theorem StopsAt.agree_iff {modinfo : HostPtr} (h : StopsAt modinfo maps t k) :
    (¬ t.start k < t.importEnd ↔ ∀ j, t.InRange j → DescriptorLinkable maps (t.address j)) ↔
      ((∀ j, t.InRange j → Harmless maps t j) ∧
        ∀ j, t.Has j → ¬ t.InRange j → ImportAccepted (foundMemory maps t j) (t.address j)) ∨
      ((∃ j, t.Has j ∧ ¬ ImportAccepted (foundMemory maps t j) (t.address j)) ∧
        ∃ j, t.InRange j ∧ ¬ DescriptorLinkable maps (t.address j)) := by
  have hpassed : ¬ t.start k < t.importEnd → ∀ j, t.Has j → PassesDescriptor maps t j := by
    intro hge j hhas
    refine h.passes j ?_
    by_contra hle
    exact hge (hhas k (Nat.le_of_not_lt hle))
  constructor
  · intro hagree
    by_cases hend : t.start k < t.importEnd
    · right
      have hsome : ¬ ∀ j, t.Has j → ImportAccepted (foundMemory maps t j) (t.address j) :=
        fun hall => h.all_iff.mpr hall hend
      have hlinkable : ¬ ∀ j, t.InRange j → DescriptorLinkable maps (t.address j) :=
        fun hall => hagree.mpr hall hend
      simp only [not_forall] at hsome hlinkable
      obtain ⟨j, hhas, hno⟩ := hsome
      obtain ⟨j', hrange, hno'⟩ := hlinkable
      exact ⟨⟨j, hhas, hno⟩, j', hrange, hno'⟩
    · left
      have hall := hagree.mp hend
      exact ⟨fun j hrange => (hpassed hend j hrange.has).harmless (hall j hrange),
        fun j hhas _ => (hpassed hend j hhas).accepted⟩
  · intro hcond
    rcases hcond with ⟨hharmless, hbeyond⟩ | ⟨⟨j, hhas, hno⟩, j', hrange, hno'⟩
    · constructor
      · intro hend j hrange
        have hfound := (hpassed hend j hrange.has).foundTested
        exact ((hharmless j hrange).kept.mp hfound).linkable (hharmless j hrange)
      · intro hall
        refine h.all_iff.mpr fun j hhas => ?_
        by_cases hrange : t.InRange j
        · have hlisted := (hall j hrange).listedTested
          exact ((hharmless j hrange).kept.mpr hlisted).accepted (hharmless j hrange)
        · exact hbeyond j hhas hrange
    · constructor
      · intro hend
        exact absurd (h.all_iff.mp hend j hhas) hno
      · intro hall
        exact absurd (hall j' hrange) hno'

end Tests

theorem readImportTable_ok {maps : List MemoryMap} {modinfo : HostPtr} {baseAddress : Word}
    {t : ImportTable} : readImportTable maps modinfo baseAddress = .ok t ↔
      t.baseAddress = baseAddress ∧ readWord maps (modinfo.add 0x2C) = .ok t.importTop ∧
        readWord maps (modinfo.add 0x30) = .ok t.importEnd := by
  constructor
  · intro h
    obtain ⟨importTop, htop, h⟩ := bind_ok.mp h
    obtain ⟨importEnd, hend, h⟩ := bind_ok.mp h
    cases h
    exact ⟨rfl, htop, hend⟩
  · intro h
    obtain ⟨rfl, htop, hend⟩ := h
    rw [readImportTable, htop, ok_bind, hend, ok_bind]
    rfl

/-- Import acceptance: the call returns, and accepts exactly the tables whose descriptors can be
linked, if and only if what it reads is mapped, and each difference between what the round asks
for and what is listed is harmless, or each of the two refuses some descriptor. -/
theorem addModuleImports_acceptsLinkable_iff (modinfo : HostPtr) (baseAddress : Word)
    (maps : List MemoryMap) (modules : List RuntimeModule) :
    AcceptsLinkable modinfo baseAddress maps modules ↔
      ∃ t k, readImportTable maps modinfo baseAddress = .ok t ∧ StopsAt modinfo maps t k ∧
        (((∀ j, t.InRange j → Harmless maps t j) ∧
          ∀ j, t.Has j → ¬ t.InRange j →
            ImportAccepted (foundMemory maps t j) (t.address j)) ∨
        ((∃ j, t.Has j ∧ ¬ ImportAccepted (foundMemory maps t j) (t.address j)) ∧
          ∃ j, t.InRange j ∧ ¬ DescriptorLinkable maps (t.address j))) := by
  constructor
  · intro h
    obtain ⟨t, fuel, flag, maps', modules', htable, hcall, hflag⟩ := h
    obtain ⟨rfl, htop, hend⟩ := readImportTable_ok.mp htable
    obtain ⟨k, hstops, hk⟩ :=
      (addModuleImports_returns_iff modules flag htop hend).mp ⟨fuel, maps', modules', hcall⟩
    exact ⟨t, k, htable, hstops, hstops.agree_iff.mp (hk.symm.trans hflag)⟩
  · intro h
    obtain ⟨t, k, htable, hstops, hcond⟩ := h
    obtain ⟨rfl, htop, hend⟩ := readImportTable_ok.mp htable
    obtain ⟨fuel, maps', modules', hcall⟩ :=
      (addModuleImports_returns_iff modules (decide (¬ t.start k < t.importEnd)) htop hend).mpr
        ⟨k, hstops, decide_eq_true_iff⟩
    exact ⟨t, fuel, _, maps', modules', htable, hcall,
      decide_eq_true_iff.trans (hstops.agree_iff.mpr hcond)⟩

/-- A module info with one import descriptor, which lists no function and no variable and has
no tables. -/
def noTablesData : List Byte :=
  List.replicate 0x2C 0 ++ ByteBuffer.encode 4 0x60 ++ ByteBuffer.encode 4 0x94 ++
    List.replicate 0x2C 0 ++ ByteBuffer.encode 2 0x34 ++ List.replicate 0x12 0 ++
    ByteBuffer.encode 4 0x1000 ++ List.replicate 0x1C 0

set_option maxRecDepth 8000 in
def noTablesMap : MemoryMap where
  name := "self"
  start := 0x1000#32
  end_ := 0x1093#32
  size := 0x94#32
  protection := 7#8
  data := noTablesData
  size_eq := by decide
  data_length := by decide

def noTablesDescriptor : ModuleImports := ⟨0#16, 0#16, 0#32, 0x1000#32, 0#32, 0#32, 0#32, 0#32⟩

theorem noTables_linkable : DescriptorLinkable [noTablesMap] 0x1060#32 := by
  refine ⟨noTablesDescriptor, ⟨⟨0, 0x60⟩, ?_, ?_, ?_⟩, ?_, ?_⟩
  · decide +kernel
  · decide +kernel
  · decide +kernel
  · intro hpos
    exact absurd hpos (by decide)
  · intro hpos
    exact absurd hpos (by decide)

/-- It has nothing that could be missing, and it is refused for its function tables. -/
theorem addModuleImports_refuses_linkable :
    ¬ AcceptsLinkable ⟨0, 0⟩ 0x1000#32 [noTablesMap] [] := by
  have hround : importRound 0x1000#32 0x60#32 ([], [noTablesMap]) =
      .ok (([], [noTablesMap]), none) := by decide +kernel
  intro h
  obtain ⟨t, fuel, flag, maps', modules', htable, hcall, hflag⟩ := h
  have ht : readImportTable [noTablesMap] ⟨0, 0⟩ 0x1000#32 =
      .ok ⟨0x1000#32, 0x60#32, 0x94#32⟩ := by decide +kernel
  cases htable.symm.trans ht
  have hall : ∀ k, (⟨0x1000#32, 0x60#32, 0x94#32⟩ : ImportTable).InRange k →
      DescriptorLinkable [noTablesMap]
        ((⟨0x1000#32, 0x60#32, 0x94#32⟩ : ImportTable).address k) := by
    intro k hrange
    have hk : 0x60 + 0x34 * k < 0x94 := hrange
    obtain rfl : k = 0 := by omega
    exact noTables_linkable
  have htrue := hflag.mpr hall
  have htop : readWord [noTablesMap] (HostPtr.add ⟨0, 0⟩ 0x2C) = .ok 0x60#32 := by decide +kernel
  have hend : readWord [noTablesMap] (HostPtr.add ⟨0, 0⟩ 0x30) = .ok 0x94#32 := by decide +kernel
  rw [addModuleImports_eq htop hend] at hcall
  obtain ⟨⟨walked, s⟩, hwalk, hcall⟩ := bind_ok.mp hcall
  cases fuel with
  | zero => cases hwalk
  | succ fuel =>
    rw [walk, if_pos (by decide), hround] at hwalk
    cases hwalk
    cases hcall
    cases htrue

end Betavita.Loader
