import Betavita.Lib.CountedLoop
import Betavita.Lib.CursorWalk
import Betavita.Loader.Import

/-!
# The walk over the export libraries

The three loops over the symbols of a library are one, with an offset that runs on. What a
round reads is named here by the tables of the library, and not by the loops: a symbol is
read when all before it are known.
-/

namespace Betavita.Loader

open Memory CountedLoop Results

/-- All symbols of a library: the functions, the variables, the TLS variables. -/
def ModuleExports.numSyms (exports : ModuleExports) : Nat :=
  exports.numSymsFuncs.toNat + exports.numSymsVars.toNat + exports.numSymsTlsVars.toNat

/-- The NIDs that are resolved for symbol `j`. -/
def ModuleExports.known (exports : ModuleExports) (j : Nat) : List Word :=
  if j < exports.numSymsFuncs.toNat then [NID_MODULE_START, NID_MODULE_STOP, NID_MODULE_EXIT]
  else if j < exports.numSymsFuncs.toNat + exports.numSymsVars.toNat then
    [NID_PROCESS_PARAM, NID_MODULE_INFO]
  else []

/-- Word `j` of a table is in the buffer of the map the table begins in. -/
def TableMapped (maps : List MemoryMap) (table : Word) (j : Nat) : Prop :=
  ∃ p, getPointerUnchecked maps table = some p ∧ InBuffer maps (p.add (4 * j)) 4

/-- Symbol `j` has a NID that is resolved. -/
def SymbolKnown (maps : List MemoryMap) (exports : ModuleExports) (j : Nat) : Prop :=
  ∃ nid ∈ exports.known j,
    readTable maps (getPointerUnchecked maps exports.nidTable) j = .ok nid

/-- The descriptor at the address is mapped, and so are the words of every symbol that all
symbols before let the loops get to. -/
def ExportReads (maps : List MemoryMap) (address : Word) : Prop :=
  ∃ p exports, getPointerUnchecked maps address = some p ∧ InBuffer maps p 0x20 ∧
    readModuleExports maps p = .ok exports ∧
    ∀ j < exports.numSyms, (∀ i < j, SymbolKnown maps exports i) →
      TableMapped maps exports.nidTable j ∧ TableMapped maps exports.entryTable j

/-- All symbols of the descriptor at the address are known; it has the size. -/
def ExportAccepted (maps : List MemoryMap) (address : Word) (size : Half) : Prop :=
  ∃ p exports, getPointerUnchecked maps address = some p ∧
    readModuleExports maps p = .ok exports ∧ exports.size = size ∧
    ∀ j < exports.numSyms, SymbolKnown maps exports j

/-! ## One loop over the symbols -/

section Symbols

variable {maps : List MemoryMap}

theorem readModuleExports_isOk_iff {p : HostPtr} :
    (∃ exports, readModuleExports maps p = .ok exports) ↔ InBuffer maps p 0x20 := by
  constructor
  · intro h
    obtain ⟨exports, h⟩ := h
    obtain ⟨_, _, h⟩ := bind_ok.mp h
    obtain ⟨_, _, h⟩ := bind_ok.mp h
    obtain ⟨_, _, h⟩ := bind_ok.mp h
    obtain ⟨_, _, h⟩ := bind_ok.mp h
    obtain ⟨_, _, h⟩ := bind_ok.mp h
    obtain ⟨entryTable, hlast, _⟩ := bind_ok.mp h
    exact (readWord_isOk_iff.mp ⟨entryTable, hlast⟩).whole (by decide)
  · intro h
    obtain ⟨size, hsize⟩ := h.readHalf (i := 0) (by decide)
    obtain ⟨funcs, hfuncs⟩ := h.readHalf (i := 0x06) (by decide)
    obtain ⟨vars, hvars⟩ := h.readWord (i := 0x08) (by decide)
    obtain ⟨tlsVars, htlsVars⟩ := h.readWord (i := 0x0C) (by decide)
    obtain ⟨nidTable, hnid⟩ := h.readWord (i := 0x18) (by decide)
    obtain ⟨entryTable, hentry⟩ := h.readWord (i := 0x1C) (by decide)
    rw [HostPtr.add_zero] at hsize
    refine ⟨⟨size, funcs, vars, tlsVars, nidTable, entryTable⟩, ?_⟩
    rw [readModuleExports, hsize, ok_bind, hfuncs, ok_bind, hvars, ok_bind, htlsVars, ok_bind,
      hnid, ok_bind, hentry, ok_bind]
    rfl

/-- What a turn of the loops does with symbol `offset`. -/
def symbolTest (maps : List MemoryMap) (known : List Word) (nidTable entryTable : Option HostPtr)
    (offset : Nat) : Except Trap Bool := do
  let nid ← readTable maps nidTable offset
  let _entry ← readTable maps entryTable offset
  return known.contains nid

theorem exportSymbols_eq {known : List Word} {nidTable entryTable : Option HostPtr}
    {n offset : Nat} : exportSymbols maps known nidTable entryTable n offset =
      (turns (check (symbolTest maps known nidTable entryTable)) n offset ()).map Prod.snd := by
  induction n generalizing offset with
  | zero => rfl
  | succ n ih =>
    rw [exportSymbols, turns, check, symbolTest]
    cases readTable maps nidTable offset with
    | error e => rfl
    | ok nid =>
      simp only [ok_bind]
      cases readTable maps entryTable offset with
      | error e => rfl
      | ok entry =>
        simp only [ok_bind]
        by_cases hknown : nid ∈ known
        · rw [if_pos hknown, List.contains_iff_mem.mpr hknown, ih]
          rfl
        · have hno : known.contains nid = false := by simpa using hknown
          rw [if_neg hknown, hno]
          rfl

/-- The loop over all symbols of a library. -/
def libraryTest (maps : List MemoryMap) (exports : ModuleExports) (j : Nat) : Except Trap Bool :=
  symbolTest maps (exports.known j) (getPointerUnchecked maps exports.nidTable)
    (getPointerUnchecked maps exports.entryTable) j

/-- The part of it that goes over `n` symbols of one kind. -/
theorem exportSymbols_of_known {exports : ModuleExports} {known : List Word} {n offset : Nat}
    (h : ∀ j, offset ≤ j → j < offset + n → exports.known j = known) :
    exportSymbols maps known (getPointerUnchecked maps exports.nidTable)
      (getPointerUnchecked maps exports.entryTable) n offset =
        (turns (check (libraryTest maps exports)) n offset ()).map Prod.snd := by
  rw [exportSymbols_eq]
  congr 1
  refine turns_congr fun j hj hlt => ?_
  unfold check libraryTest
  rw [h j hj hlt]

/-- The offset runs on through the three loops. -/
theorem exportLibrary_eq {p : HostPtr} : exportLibrary maps (some p) =
    (readModuleExports maps p >>= fun exports =>
      (turns (check (libraryTest maps exports)) exports.numSyms 0 ()).map
        fun r => (r.2, exports.size)) := by
  simp only [exportLibrary]
  congr 1
  funext exports
  have hfuncs : ∀ j, 0 ≤ j → j < 0 + exports.numSymsFuncs.toNat → exports.known j =
      [NID_MODULE_START, NID_MODULE_STOP, NID_MODULE_EXIT] := by
    intro j _ hj
    rw [ModuleExports.known, if_pos (by omega)]
  have hvars : ∀ j, exports.numSymsFuncs.toNat ≤ j →
      j < exports.numSymsFuncs.toNat + exports.numSymsVars.toNat → exports.known j =
        [NID_PROCESS_PARAM, NID_MODULE_INFO] := by
    intro j hlow hj
    rw [ModuleExports.known, if_neg (by omega), if_pos (by omega)]
  have htls : ∀ j, exports.numSymsFuncs.toNat + exports.numSymsVars.toNat ≤ j →
      j < exports.numSymsFuncs.toNat + exports.numSymsVars.toNat +
        exports.numSymsTlsVars.toNat → exports.known j = [] := by
    intro j hlow _
    rw [ModuleExports.known, if_neg (by omega), if_neg (by omega)]
  simp only [exportSymbols_of_known hfuncs, exportSymbols_of_known hvars,
    exportSymbols_of_known htls]
  rw [ModuleExports.numSyms, turns_append, turns_append, Nat.zero_add]
  cases turns (check (libraryTest maps exports)) exports.numSymsFuncs.toNat 0 () with
  | error e => rfl
  | ok r =>
    obtain ⟨_, funcs⟩ := r
    cases funcs with
    | false => rfl
    | true =>
      simp only [ok_bind, Except.map, if_true, Bool.not_true, Bool.false_eq_true, if_false]
      cases turns (check (libraryTest maps exports)) exports.numSymsVars.toNat
          exports.numSymsFuncs.toNat () with
      | error e => rfl
      | ok r =>
        obtain ⟨_, vars⟩ := r
        cases vars with
        | false => rfl
        | true =>
          simp only [ok_bind, if_true, Bool.not_true, Bool.false_eq_true, if_false,
            Nat.zero_add]
          cases turns (check (libraryTest maps exports)) exports.numSymsTlsVars.toNat
              (exports.numSymsFuncs.toNat + exports.numSymsVars.toNat) () with
          | error e => rfl
          | ok r => rfl

theorem readTable_isOk_iff {table : Word} {j : Nat} :
    (∃ w, readTable maps (getPointerUnchecked maps table) j = .ok w) ↔
      TableMapped maps table j := by
  unfold readTable TableMapped
  cases getPointerUnchecked maps table with
  | none => simp
  | some p => simp [readWord_isOk_iff]

variable {exports : ModuleExports} {j : Nat}

theorem libraryTest_isOk_iff : (∃ b, libraryTest maps exports j = .ok b) ↔
    TableMapped maps exports.nidTable j ∧ TableMapped maps exports.entryTable j := by
  rw [← readTable_isOk_iff, ← readTable_isOk_iff]
  constructor
  · intro h
    obtain ⟨b, h⟩ := h
    obtain ⟨nid, hnid, h⟩ := bind_ok.mp h
    obtain ⟨entry, hentry, _⟩ := bind_ok.mp h
    exact ⟨⟨nid, hnid⟩, ⟨entry, hentry⟩⟩
  · intro h
    obtain ⟨⟨nid, hnid⟩, ⟨entry, hentry⟩⟩ := h
    exact ⟨_, bind_ok.mpr ⟨nid, hnid, bind_ok.mpr ⟨entry, hentry, rfl⟩⟩⟩

theorem libraryTest_true_iff
    (h : TableMapped maps exports.nidTable j ∧ TableMapped maps exports.entryTable j) :
    libraryTest maps exports j = .ok true ↔ SymbolKnown maps exports j := by
  obtain ⟨⟨nid, hnid⟩, ⟨entry, hentry⟩⟩ :=
    And.intro (readTable_isOk_iff.mpr h.1) (readTable_isOk_iff.mpr h.2)
  have htest : libraryTest maps exports j = .ok ((exports.known j).contains nid) := by
    rw [libraryTest, symbolTest, hnid, ok_bind, hentry, ok_bind]
    rfl
  rw [htest, SymbolKnown]
  constructor
  · intro hknown
    exact ⟨nid, by simpa using hknown, hnid⟩
  · intro hknown
    obtain ⟨nid', hmem, hnid'⟩ := hknown
    cases hnid.symm.trans hnid'
    simpa using hmem

end Symbols

/-! ## The rounds of the walk -/

/-- A round of `add_module_exports`, at the offset of a descriptor from the base. -/
def exportRound (maps : List MemoryMap) (baseAddress : Word) : CursorWalk.Round Trap Unit 32 :=
  fun exportStart s =>
    (exportLibrary maps (getPointerUnchecked maps (baseAddress + exportStart))).map
      fun r => (s, if r.1 then some (r.2.setWidth 32) else none)

section Round

variable {maps : List MemoryMap} {baseAddress exportEnd cursor : Word}

theorem exportLibraries_eq_walk {fuel : Nat} :
    exportLibraries maps exportEnd baseAddress fuel cursor =
      (CursorWalk.walk (exportRound maps baseAddress) .outOfFuel exportEnd fuel cursor ()).map
        Prod.fst := by
  induction fuel generalizing cursor with
  | zero => rfl
  | succ fuel ih =>
    rw [exportLibraries, CursorWalk.walk]
    by_cases hlt : cursor < exportEnd
    · simp only [hlt, if_true, exportRound]
      cases exportLibrary maps (getPointerUnchecked maps (baseAddress + cursor)) with
      | error e => rfl
      | ok r =>
        obtain ⟨exported, size⟩ := r
        cases exported with
        | false => rfl
        | true => exact ih
    · simp only [hlt, if_false]
      rfl

/-- A round has a result exactly when all it reads is mapped. -/
theorem exportRound_isOk_iff : (∃ r, exportRound maps baseAddress cursor () = .ok r) ↔
    ExportReads maps (baseAddress + cursor) := by
  unfold exportRound ExportReads
  rw [exists_map_ok]
  cases hp : getPointerUnchecked maps (baseAddress + cursor) with
  | none => simp [exportLibrary]
  | some p =>
    rw [exportLibrary_eq]
    constructor
    · intro h
      obtain ⟨_, h⟩ := h
      obtain ⟨exports, hexports, h⟩ := bind_ok.mp h
      refine ⟨p, exports, rfl, readModuleExports_isOk_iff.mp ⟨exports, hexports⟩, hexports, ?_⟩
      exact (turns_check_isOk_iff (fun _ => libraryTest_isOk_iff)
        (fun _ => libraryTest_true_iff)).mp (exists_map_ok.mp ⟨_, h⟩)
    · intro h
      obtain ⟨_, exports, hsome, _, hexports, hsymbols⟩ := h
      cases hsome
      obtain ⟨r, hr⟩ := (turns_check_isOk_iff (fun _ => libraryTest_isOk_iff)
        (fun _ => libraryTest_true_iff)).mpr hsymbols
      exact ⟨_, bind_ok.mpr ⟨exports, hexports, by rw [hr]; rfl⟩⟩

/-- It accepts the descriptors all of whose symbols are known. -/
theorem exportRound_some_iff (hreads : ExportReads maps (baseAddress + cursor)) {size : Word} :
    exportRound maps baseAddress cursor () = .ok ((), some size) ↔
      ∃ size', ExportAccepted maps (baseAddress + cursor) size' ∧ size'.setWidth 32 = size := by
  obtain ⟨p, exports, hp, _, hexports, hsymbols⟩ := hreads
  have htrue := turns_check_true_iff (fun _ => libraryTest_isOk_iff)
    (fun _ => libraryTest_true_iff) hsymbols
  obtain ⟨⟨⟨⟩, all⟩, hturns⟩ := (turns_check_isOk_iff (fun _ => libraryTest_isOk_iff)
    (fun _ => libraryTest_true_iff)).mpr hsymbols
  have hround : exportRound maps baseAddress cursor () =
      .ok ((), if all then some (exports.size.setWidth 32) else none) := by
    rw [exportRound, hp, exportLibrary_eq, hexports, ok_bind, hturns]
    rfl
  rw [hturns] at htrue
  rw [hround]
  constructor
  · intro h
    cases all with
    | false => cases h
    | true =>
      cases h
      exact ⟨exports.size, ⟨p, exports, hp, hexports, rfl, htrue.mp rfl⟩, rfl⟩
  · intro h
    obtain ⟨size', ⟨p', exports', hp', hexports', hsize, hknown⟩, hwidth⟩ := h
    cases hp.symm.trans hp'
    cases hexports.symm.trans hexports'
    cases htrue.mpr hknown
    rw [← hwidth, ← hsize]
    rfl

/-- The other descriptors are refused. -/
theorem exportRound_none_iff (hreads : ExportReads maps (baseAddress + cursor)) :
    exportRound maps baseAddress cursor () = .ok ((), none) ↔
      ¬ ∃ size, ExportAccepted maps (baseAddress + cursor) size := by
  obtain ⟨⟨⟨⟩, size⟩, hround⟩ := exportRound_isOk_iff.mpr hreads
  constructor
  · intro hnone h
    obtain ⟨size', haccepted⟩ := h
    have hsome := (exportRound_some_iff hreads).mpr ⟨size', haccepted, rfl⟩
    cases hnone.symm.trans hsome
  · intro hno
    cases size with
    | none => exact hround
    | some size =>
      obtain ⟨size', haccepted, _⟩ := (exportRound_some_iff hreads).mp hround
      exact absurd ⟨size', haccepted⟩ hno

end Round

end Betavita.Loader
