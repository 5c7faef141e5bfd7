import Betavita.Loader.ExportTables
import Betavita.Loader.ImportTables

/-!
# Where the walks over the module tables end

Both walks move a 32-bit cursor by a size, the import walk by 0x34 and the export walk by what
the descriptor says. A walk ends in order when no round reads past a map and no accepted
descriptor leaves the cursor where it is or carries it past the top of the address space.
-/

namespace Betavita.Loader

open Memory Hle CursorWalk Results

/-- The address of a descriptor, as a number. -/
def addressOf (baseAddress cursor : Word) : Nat := (baseAddress + cursor).toNat

/-- `add_module_imports` returns, after a walk over the records; if it returns `true`, these are
the descriptors from the top to the end, in order. -/
def ImportsInOrder (modinfo : HostPtr) (baseAddress : Word) (maps : List MemoryMap)
    (modules : List RuntimeModule) : Prop :=
  ∃ importTop importEnd records flag s fuel modules',
    readWord maps (modinfo.add 0x2C) = .ok importTop ∧
    readWord maps (modinfo.add 0x30) = .ok importEnd ∧
    Run (importRound baseAddress) importEnd importTop ([], maps) records flag s ∧
    addModuleImports fuel modinfo baseAddress maps modules = .ok (flag, s.2, modules') ∧
    (flag = true → InOrder (addressOf baseAddress) importEnd importTop records)

/-- `add_module_exports` does. -/
def ExportsInOrder (modinfo : HostPtr) (baseAddress : Word) (maps : List MemoryMap) : Prop :=
  ∃ exportTop exportEnd records flag fuel,
    readWord maps (modinfo.add 0x24) = .ok exportTop ∧
    readWord maps (modinfo.add 0x28) = .ok exportEnd ∧
    Run (exportRound maps baseAddress) exportEnd exportTop () records flag () ∧
    addModuleExports fuel modinfo baseAddress maps = .ok flag ∧
    (flag = true → InOrder (addressOf baseAddress) exportEnd exportTop records)

/-- What the rounds of the import walk read is mapped, in the memory they find; and one refuses
its descriptor, or 0x34 moves the cursor up from each that is accepted. -/
structure ImportRoundsSafe (baseAddress : Word) (maps : List MemoryMap)
    (importTop importEnd : Word) : Prop where
  reads : ∀ cursor libraries m,
    Reaches (importRound baseAddress) importEnd importTop ([], maps) cursor (libraries, m) →
    cursor < importEnd → ImportReads m (baseAddress + cursor)
  advances :
    (∃ cursor libraries m,
      Reaches (importRound baseAddress) importEnd importTop ([], maps) cursor (libraries, m) ∧
      cursor < importEnd ∧ ¬ ImportAccepted m (baseAddress + cursor)) ∨
    ∀ cursor libraries m,
      Reaches (importRound baseAddress) importEnd importTop ([], maps) cursor (libraries, m) →
      cursor < importEnd → ImportAccepted m (baseAddress + cursor) →
      Advances (addressOf baseAddress) importEnd cursor 0x34#32

/-- Behind the rounds, the name and the NID of the module are mapped as well. -/
structure ImportWalkSafe (modinfo : HostPtr) (baseAddress : Word) (maps : List MemoryMap)
    (importTop importEnd : Word) : Prop extends
    ImportRoundsSafe baseAddress maps importTop importEnd where
  info : ∀ cursor libraries m,
    Reaches (importRound baseAddress) importEnd importTop ([], maps) cursor (libraries, m) →
    ¬ cursor < importEnd →
    (∃ libraryName, readCString m (some (modinfo.add 0x04)) = .ok libraryName) ∧
      InBuffer m (modinfo.add 0x34) 4

/-- What the export walk reads is mapped; and it refuses a descriptor, or the size of each that it
accepts moves the cursor up. -/
structure ExportWalkSafe (baseAddress : Word) (maps : List MemoryMap)
    (exportTop exportEnd : Word) : Prop where
  reads : ∀ cursor, Reaches (exportRound maps baseAddress) exportEnd exportTop () cursor () →
    cursor < exportEnd → ExportReads maps (baseAddress + cursor)
  advances :
    (∃ cursor, Reaches (exportRound maps baseAddress) exportEnd exportTop () cursor () ∧
      cursor < exportEnd ∧ ¬ ∃ size, ExportAccepted maps (baseAddress + cursor) size) ∨
    ∀ cursor size, Reaches (exportRound maps baseAddress) exportEnd exportTop () cursor () →
      cursor < exportEnd → ExportAccepted maps (baseAddress + cursor) size →
      Advances (addressOf baseAddress) exportEnd cursor (size.setWidth 32)

/-! ## The import walk -/

section Imports

variable {modinfo : HostPtr} {baseAddress importTop importEnd : Word} {maps : List MemoryMap}
  {modules : List RuntimeModule}

theorem endsInOrder_imports_iff :
    EndsInOrder (importRound baseAddress) (addressOf baseAddress) importEnd importTop ([], maps) ↔
      ImportRoundsSafe baseAddress maps importTop importEnd := by
  rw [endsInOrder_iff]
  constructor
  · intro h
    obtain ⟨hdefined, hends⟩ := h
    have hreads : ∀ cursor libraries m,
        Reaches (importRound baseAddress) importEnd importTop ([], maps) cursor (libraries, m) →
        cursor < importEnd → ImportReads m (baseAddress + cursor) :=
      fun cursor libraries m hreach hlt =>
        (importRound_isOk_iff libraries).mp (hdefined cursor (libraries, m) hreach hlt)
    refine ⟨hreads, ?_⟩
    rcases hends with ⟨cursor, ⟨libraries, m⟩, s, hreach, hlt, hround⟩ | hadvance
    · exact .inl ⟨cursor, libraries, m, hreach, hlt,
        (importRound_none_iff libraries (hreads cursor libraries m hreach hlt)).mp ⟨s, hround⟩⟩
    · right
      intro cursor libraries m hreach hlt haccepted
      obtain ⟨s, hround⟩ :=
        (importRound_some_iff libraries (hreads cursor libraries m hreach hlt)).mpr haccepted
      exact hadvance cursor (libraries, m) s _ hreach hlt hround
  · intro h
    obtain ⟨hreads, hends⟩ := h
    constructor
    · intro cursor s hreach hlt
      obtain ⟨libraries, m⟩ := s
      exact (importRound_isOk_iff libraries).mpr (hreads cursor libraries m hreach hlt)
    · rcases hends with ⟨cursor, libraries, m, hreach, hlt, hno⟩ | hadvance
      · obtain ⟨s, hround⟩ :=
          (importRound_none_iff libraries (hreads cursor libraries m hreach hlt)).mpr hno
        exact .inl ⟨cursor, (libraries, m), s, hreach, hlt, hround⟩
      · right
        intro cursor s s' size hreach hlt hround
        obtain ⟨libraries, m⟩ := s
        cases importRound_size hround
        exact hadvance cursor libraries m hreach hlt
          ((importRound_some_iff libraries (hreads cursor libraries m hreach hlt)).mp ⟨s', hround⟩)

/-- The call, by the walk it makes. -/
theorem addModuleImports_eq {fuel : Nat} (htop : readWord maps (modinfo.add 0x2C) = .ok importTop)
    (hend : readWord maps (modinfo.add 0x30) = .ok importEnd) :
    addModuleImports fuel modinfo baseAddress maps modules =
      (walk (importRound baseAddress) .outOfFuel importEnd fuel importTop ([], maps) >>= fun r =>
        if r.1 then do
          let libraryName ← readCString r.2.2 (some (modinfo.add 0x04))
          let moduleNid ← readWord r.2.2 (modinfo.add 0x34)
          return (true, r.2.2, addRuntimeModule modules ⟨libraryName, moduleNid, r.2.1⟩)
        else .ok (false, r.2.2, modules)) := by
  rw [addModuleImports, htop, ok_bind, hend, ok_bind, importLibraries_eq_walk]
  cases walk (importRound baseAddress) .outOfFuel importEnd fuel importTop ([], maps) with
  | error e => rfl
  | ok r =>
    obtain ⟨flag, libraries, m⟩ := r
    cases flag with
    | false => rfl
    | true => rfl

theorem importsInOrder_iff : ImportsInOrder modinfo baseAddress maps modules ↔
    ∃ importTop importEnd, readWord maps (modinfo.add 0x2C) = .ok importTop ∧
      readWord maps (modinfo.add 0x30) = .ok importEnd ∧
      ImportWalkSafe modinfo baseAddress maps importTop importEnd := by
  constructor
  · intro h
    obtain ⟨importTop, importEnd, records, flag, s, fuel, modules', htop, hend, hrun, hcall,
      horder⟩ := h
    refine ⟨importTop, importEnd, htop, hend,
      endsInOrder_imports_iff.mp ⟨records, flag, s, hrun, horder⟩, ?_⟩
    intro cursor libraries m hreach hge
    -- the walk is at its end here, so the name and the NID are read in this memory
    obtain ⟨records', hrest⟩ := hreach.run hrun
    cases hrest with
    | refused hlt _ => exact absurd hlt hge
    | next hlt _ _ => exact absurd hlt hge
    | done _ =>
      rw [addModuleImports_eq htop hend] at hcall
      obtain ⟨⟨flag', s'⟩, hwalk, hcall⟩ := bind_ok.mp hcall
      cases flag' with
      | false => cases hcall
      | true =>
        obtain ⟨name, hname, hcall⟩ := bind_ok.mp hcall
        obtain ⟨nid, hnid, hcall⟩ := bind_ok.mp hcall
        cases hcall
        exact ⟨⟨name, hname⟩, readWord_isOk_iff.mp ⟨nid, hnid⟩⟩
  · intro h
    obtain ⟨importTop, importEnd, htop, hend, hrounds, hinfo⟩ := h
    obtain ⟨records, flag, s, hrun, horder⟩ := endsInOrder_imports_iff.mpr hrounds
    have hwalk := hrun.walk Trap.outOfFuel
    have hcall : ∃ modules', addModuleImports (records.length + 1) modinfo baseAddress maps
        modules = .ok (flag, s.2, modules') := by
      rw [addModuleImports_eq htop hend, hwalk, ok_bind]
      cases flag with
      | false => exact ⟨modules, rfl⟩
      | true =>
        obtain ⟨cursor, hreach, hge⟩ := hrun.reaches_end
        obtain ⟨⟨name, hname⟩, hin⟩ := hinfo cursor s.1 s.2 hreach hge
        obtain ⟨nid, hnid⟩ := readWord_isOk_iff.mpr hin
        simp only [if_true, hname, ok_bind, hnid]
        exact ⟨_, rfl⟩
    obtain ⟨modules', hcall⟩ := hcall
    exact ⟨importTop, importEnd, records, flag, s, records.length + 1, modules', htop, hend, hrun,
      hcall, horder⟩

end Imports

/-! ## The export walk -/

section Exports

variable {modinfo : HostPtr} {baseAddress exportTop exportEnd : Word} {maps : List MemoryMap}

theorem endsInOrder_exports_iff :
    EndsInOrder (exportRound maps baseAddress) (addressOf baseAddress) exportEnd exportTop () ↔
      ExportWalkSafe baseAddress maps exportTop exportEnd := by
  rw [endsInOrder_iff]
  constructor
  · intro h
    obtain ⟨hdefined, hends⟩ := h
    have hreads : ∀ cursor,
        Reaches (exportRound maps baseAddress) exportEnd exportTop () cursor () →
        cursor < exportEnd → ExportReads maps (baseAddress + cursor) :=
      fun cursor hreach hlt => exportRound_isOk_iff.mp (hdefined cursor () hreach hlt)
    refine ⟨hreads, ?_⟩
    rcases hends with ⟨cursor, ⟨⟩, ⟨⟩, hreach, hlt, hround⟩ | hadvance
    · exact .inl ⟨cursor, hreach, hlt, (exportRound_none_iff (hreads cursor hreach hlt)).mp hround⟩
    · right
      intro cursor size hreach hlt haccepted
      exact hadvance cursor () () _ hreach hlt
        ((exportRound_some_iff (hreads cursor hreach hlt)).mpr ⟨size, haccepted, rfl⟩)
  · intro h
    obtain ⟨hreads, hends⟩ := h
    constructor
    · intro cursor s hreach hlt
      exact exportRound_isOk_iff.mpr (hreads cursor hreach hlt)
    · rcases hends with ⟨cursor, hreach, hlt, hno⟩ | hadvance
      · exact .inl ⟨cursor, (), (), hreach, hlt,
          (exportRound_none_iff (hreads cursor hreach hlt)).mpr hno⟩
      · right
        intro cursor s s' size hreach hlt hround
        obtain ⟨size', haccepted, rfl⟩ :=
          (exportRound_some_iff (hreads cursor hreach hlt)).mp hround
        exact hadvance cursor size' hreach hlt haccepted

/-- The call, by the walk it makes. -/
theorem addModuleExports_eq {fuel : Nat} (htop : readWord maps (modinfo.add 0x24) = .ok exportTop)
    (hend : readWord maps (modinfo.add 0x28) = .ok exportEnd)
    (htls : InBuffer maps (modinfo.add 0x38) 0x0C) :
    addModuleExports fuel modinfo baseAddress maps =
      (walk (exportRound maps baseAddress) .outOfFuel exportEnd fuel exportTop ()).map
        Prod.fst := by
  obtain ⟨tlsStart, hstart⟩ := htls.readWord (i := 0) (by decide)
  obtain ⟨tlsFilesz, hfilesz⟩ := htls.readWord (i := 4) (by decide)
  obtain ⟨tlsMemsz, hmemsz⟩ := htls.readWord (i := 8) (by decide)
  rw [HostPtr.add_add] at hstart hfilesz hmemsz
  rw [addModuleExports, htop, ok_bind, hend, ok_bind, hstart, ok_bind, hfilesz, ok_bind, hmemsz,
    ok_bind, exportLibraries_eq_walk]

theorem exportsInOrder_iff : ExportsInOrder modinfo baseAddress maps ↔
    ∃ exportTop exportEnd, readWord maps (modinfo.add 0x24) = .ok exportTop ∧
      readWord maps (modinfo.add 0x28) = .ok exportEnd ∧
      InBuffer maps (modinfo.add 0x38) 0x0C ∧
      ExportWalkSafe baseAddress maps exportTop exportEnd := by
  constructor
  · intro h
    obtain ⟨exportTop, exportEnd, records, flag, fuel, htop, hend, hrun, hcall, horder⟩ := h
    refine ⟨exportTop, exportEnd, htop, hend, ?_,
      endsInOrder_exports_iff.mp ⟨records, flag, (), hrun, horder⟩⟩
    rw [addModuleExports, htop, ok_bind, hend, ok_bind] at hcall
    obtain ⟨_, _, hcall⟩ := bind_ok.mp hcall
    obtain ⟨_, _, hcall⟩ := bind_ok.mp hcall
    obtain ⟨tlsMemsz, hmemsz, _⟩ := bind_ok.mp hcall
    have hlast : readWord maps ((modinfo.add 0x38).add 8) = .ok tlsMemsz := by
      rw [HostPtr.add_add]
      exact hmemsz
    exact (readWord_isOk_iff.mp ⟨tlsMemsz, hlast⟩).whole (by decide)
  · intro h
    obtain ⟨exportTop, exportEnd, htop, hend, htls, hsafe⟩ := h
    obtain ⟨records, flag, ⟨⟩, hrun, horder⟩ := endsInOrder_exports_iff.mpr hsafe
    refine ⟨exportTop, exportEnd, records, flag, records.length + 1, htop, hend, hrun, ?_, horder⟩
    rw [addModuleExports_eq htop hend htls, hrun.walk Trap.outOfFuel]
    rfl

end Exports

/-- Import and export walks: each returns, and on `true` has gone over the descriptors from the
top to the end in order, exactly when the words of the module info that it reads are mapped and
the walk is safe. -/
theorem moduleWalks_inOrder_iff (modinfo : HostPtr) (baseAddress : Word) (maps : List MemoryMap)
    (modules : List RuntimeModule) :
    (ImportsInOrder modinfo baseAddress maps modules ↔
      ∃ importTop importEnd, readWord maps (modinfo.add 0x2C) = .ok importTop ∧
        readWord maps (modinfo.add 0x30) = .ok importEnd ∧
        ImportWalkSafe modinfo baseAddress maps importTop importEnd) ∧
    (ExportsInOrder modinfo baseAddress maps ↔
      ∃ exportTop exportEnd, readWord maps (modinfo.add 0x24) = .ok exportTop ∧
        readWord maps (modinfo.add 0x28) = .ok exportEnd ∧
        InBuffer maps (modinfo.add 0x38) 0x0C ∧
        ExportWalkSafe baseAddress maps exportTop exportEnd) :=
  ⟨importsInOrder_iff, exportsInOrder_iff⟩

/-- A map that begins with a module info whose `export_end` is 1; all other bytes are zero. -/
def exportInfoMap : MemoryMap where
  name := "self"
  start := 0x1000#32
  end_ := 0x105B#32
  size := 0x5C#32
  protection := 7#8
  data := List.replicate 0x28 0 ++ [1#8] ++ List.replicate 0x33 0
  size_eq := by decide
  data_length := by decide

/-- An export descriptor that is not mapped is read through the null pointer, and one of size
zero is walked over again and again. -/
theorem moduleExports_notInOrder : ¬ ExportsInOrder ⟨0, 0⟩ 0x2000#32 [exportInfoMap] ∧
    ¬ ExportsInOrder ⟨0, 0⟩ 0x1030#32 [exportInfoMap] := by
  have hnull : ∀ fuel flag,
      addModuleExports (fuel + 1) ⟨0, 0⟩ 0x2000#32 [exportInfoMap] ≠ .ok flag := by
    intro fuel flag h
    have hnone : addModuleExports (fuel + 1) ⟨0, 0⟩ 0x2000#32 [exportInfoMap] =
      .error .nullAccess := rfl
    cases hnone.symm.trans h
  have hloop : ∀ fuel, exportLibraries [exportInfoMap] 1#32 0x1030#32 fuel 0#32 =
      .error .outOfFuel := by
    intro fuel
    induction fuel with
    | zero => rfl
    | succ fuel ih => exact ih
  constructor
  · intro h
    obtain ⟨_, _, _, flag, fuel, _, _, _, hcall, _⟩ := h
    cases fuel with
    | zero => cases hcall
    | succ fuel => exact hnull fuel flag hcall
  · intro h
    obtain ⟨_, _, _, flag, fuel, _, _, _, hcall, _⟩ := h
    have hcall' : addModuleExports fuel ⟨0, 0⟩ 0x1030#32 [exportInfoMap] =
      exportLibraries [exportInfoMap] 1#32 0x1030#32 fuel 0#32 := rfl
    rw [hcall', hloop] at hcall
    cases hcall

end Betavita.Loader
