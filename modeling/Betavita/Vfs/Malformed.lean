import Betavita.Vfs.CreateFile
import Betavita.Vfs.GetFile
import Betavita.Vfs.Spellings

/-!
# vfs.cpp — malformed paths

The scanner passes over characters it does not know, and `parse` ends at two tokens without
a slash in between. Either is printed, and neither is reported: the calls go on with what
was kept of the path.
-/

namespace Betavita.Vfs

open PathWalk Results

/-! ## Tokens -/

/-- The tokens of a path. -/
def tokens (scanner : List Char) : List Name :=
  if (scanToken scanner).1 = [] then []
  else (scanToken scanner).1 :: tokens (scanToken scanner).2
termination_by scanner.length
decreasing_by exact scanToken_length_lt ‹_›

/-- What `parse` keeps of the tokens: every other one, for as long as a slash follows. -/
def kept : List Name → List Name
  | [] => []
  | [i] => [i]
  | i :: j :: rest => if j = ['/'] then i :: kept rest else [i]

/-- Behind the last token there is no other. -/
theorem scanToken_end {s : List Char} (h : (scanToken s).1 = []) :
    (scanToken (scanToken s).2).1 = [] := by
  induction s with
  | nil => rfl
  | cons lookahead rest ih =>
    unfold scanToken at h
    split_ifs at h with hident hslash hcolon hnul
    · rw [scanToken, if_neg hident, if_neg hslash, if_neg hcolon, if_pos hnul]
      exact ih h
    · rw [scanToken, if_neg hident, if_neg hslash, if_neg hcolon, if_neg hnul, scanToken,
        if_neg hident, if_neg hslash, if_neg hcolon, if_neg hnul]

theorem tokens_of_end {s : List Char} (h : (scanToken s).1 = []) : tokens s = [] := by
  rw [tokens, if_pos h]

theorem tokens_of_token {s : List Char} (h : (scanToken s).1 ≠ []) :
    tokens s = (scanToken s).1 :: tokens (scanToken s).2 := by
  rw [tokens, if_neg h]

theorem parse_kept (scanner : List Char) : (parse scanner).1 = kept (tokens scanner) := by
  induction hlen : scanner.length using Nat.strongRecOn generalizing scanner with
  | ind n ih =>
    rw [parse_eq]
    by_cases hfirst : (scanToken scanner).1 = []
    · rw [tokens_of_end hfirst, scanToken_end hfirst, hfirst]
      simp [firstBranch, kept]
    rw [tokens_of_token hfirst, firstBranch, if_pos hfirst]
    by_cases hsecond : (scanToken (scanToken scanner).2).1 = []
    · rw [tokens_of_end hsecond, hsecond]
      simp [kept]
    rw [tokens_of_token hsecond, kept]
    split_ifs with hslash
    · have hlt := scanToken_length_lt hsecond
      have hle := scanToken_length_le scanner
      rw [← ih _ (by omega) _ rfl, List.singleton_append]
    · rfl

/-- A character that is in no token, or two tokens without a slash in between. -/
def Malformed (p : List Char) : Prop :=
  (∃ c ∈ p, checkIdentifier c = false ∧ c ≠ '/' ∧ c ≠ ':') ∨
    ∃ before i j behind, tokens p = before ++ i :: j :: behind ∧ i ≠ ['/'] ∧ j ≠ ['/']

/-! ## Rejection -/

/-- The calls find nothing to create or to get at the path. -/
def VirtualFilesystem.Rejects (fs : VirtualFilesystem) (fileType : Int) (p : List Char) : Prop :=
  (∃ fs', fs.createFile fileType p = .ok (fs', false) ∧ fs'.tree = fs.tree) ∧
    ∃ fs', fs.getFile p = .ok (fs', [])

/-- The calls take two paths for one, and do not reject it. -/
def VirtualFilesystem.TakenForOne (fs : VirtualFilesystem) (fileType : Int) (p q : List Char) :
    Prop :=
  fs.SameCalls p q ∧ ¬ fs.Rejects fileType p

/-- A malformed path is rejected, and taken for no other path of which the same is kept. -/
def VirtualFilesystem.RejectsMalformed (fs : VirtualFilesystem) (fileType : Int) (p : List Char) :
    Prop :=
  Malformed p → fs.Rejects fileType p ∧
    ∀ q, q ≠ p → kept (tokens q) = kept (tokens p) → ¬ fs.TakenForOne fileType p q

/-- The walks along the components lead nowhere: not to an entry or the root, not past a file,
and not to a missing last name either if it can be created. -/
def VirtualFilesystem.LeadsNowhere (fs : VirtualFilesystem) (fileType : Int)
    (components : List Name) : Prop :=
  fs.resolve components = none ∧ ¬ fs.GoesPastFile components ∧
    (creatable fileType = true → ∀ dir n, ¬ fs.LastMissing components dir n)

section Mounted

variable {fs : VirtualFilesystem} (h : fs.WellFormed) {mp : MountPoint}
  (hmp : fs.mountpoints ['u', 'x', '0'] = some mp)
include h hmp

theorem createFile_rejects_iff (fileType : Int) (p : List Char) :
    (∃ fs', fs.createFile fileType p = .ok (fs', false) ∧ fs'.tree = fs.tree) ↔
      fs.created fileType (parse p).1 = none := by
  obtain ⟨fs', created, hrun, -, -, hcreated⟩ := createFile_created h hmp fileType p
  constructor
  · rintro ⟨fs'', hrun', -⟩
    rw [hrun] at hrun'
    cases hrun'
    obtain ⟨-, hnone, -⟩ | ⟨hfalse, -⟩ := hcreated
    · exact hnone
    · cases hfalse
  · intro hnone
    rw [hnone] at hcreated
    obtain ⟨rfl, -, rfl⟩ | ⟨-, hsome⟩ := hcreated
    · exact ⟨_, hrun, rfl⟩
    · cases hsome

/-- `getFile` yields nothing if its path leads to no entry and not past a file. -/
theorem getFile_rejects_iff (p : List Char) :
    (∃ fs', fs.getFile p = .ok (fs', [])) ↔
      (fs.resolve (parse p).1 = none ∨ fs.resolve (parse p).1 = some .root) ∧
        ¬ fs.GoesPastFile (parse p).1 := by
  have hstrict : (looseWalk fs.tree ((parse p).1.map componentOf)).bind Loose.strict =
      fs.resolve (parse p).1 := looseWalk_strict ..
  rcases getFile_walk h hmp p with ⟨hwalk, hget⟩ | ⟨l, s, hwalk, hget, hempty, hexact⟩
  · rw [hwalk] at hstrict
    simp [hget, ← hstrict, VirtualFilesystem.GoesPastFile, hwalk]
  · rw [hwalk, Option.bind_some, Loose.strict] at hstrict
    cases hpast : l.past with
    | true =>
      rw [hpast] at hstrict
      simp [hget, ← hstrict, VirtualFilesystem.GoesPastFile, hwalk, hpast, hempty]
    | false =>
      have hroot : l.depth = 0 ↔ l.position = .root := by
        rw [(hexact hpast).2, List.length_eq_zero_iff]
        obtain ⟨dir, file⟩ := l.position
        cases file <;> simp [Position.path, Position.root]
      rw [hpast] at hstrict
      simp [hget, ← hstrict, VirtualFilesystem.GoesPastFile, hwalk, hpast, hempty, hroot]

/-- The calls reject what leads nowhere. -/
theorem rejects_iff (fileType : Int) (p : List Char) :
    fs.Rejects fileType p ↔ fs.LeadsNowhere fileType (parse p).1 := by
  rw [VirtualFilesystem.Rejects, createFile_rejects_iff h hmp, getFile_rejects_iff h hmp,
    fs.created_eq_none_iff]
  constructor
  · rintro ⟨⟨hdir, hmissing⟩, hresolve | hroot, hpast⟩
    · exact ⟨hresolve, hpast, hmissing⟩
    · exact absurd hroot (hdir [])
  · rintro ⟨hresolve, hpast, hmissing⟩
    refine ⟨⟨fun dir => ?_, hmissing⟩, .inl hresolve, hpast⟩
    rw [hresolve]
    exact nofun

end Mounted

/-- A malformed path is rejected if and only if what is kept of it leads nowhere; and it is
taken for every path of which the same is kept. -/
theorem rejectsMalformed_iff {fs : VirtualFilesystem} (h : fs.WellFormed) {mp : MountPoint}
    (hmp : fs.mountpoints ['u', 'x', '0'] = some mp) (fileType : Int) (p : List Char) :
    (fs.RejectsMalformed fileType p ↔
      (Malformed p → fs.LeadsNowhere fileType (kept (tokens p)))) ∧
    ∀ q, kept (tokens q) = kept (tokens p) → fs.SameCalls p q := by
  refine ⟨?_, fun q hq => sameCalls_of_parse fs (by rw [parse_kept, parse_kept, hq])⟩
  rw [← parse_kept, ← rejects_iff h hmp]
  constructor
  · intro hrejects hmalformed
    exact (hrejects hmalformed).1
  · intro hrejects hmalformed
    exact ⟨hrejects hmalformed, fun q _ _ htaken => htaken.2 (hrejects hmalformed)⟩

theorem rejectsMalformed_iff_blank :
    ((VirtualFilesystem.mounted []).RejectsMalformed FILE_TYPE_FILE ['a', ' ', 'b'] ↔
      (Malformed ['a', ' ', 'b'] → (VirtualFilesystem.mounted []).LeadsNowhere FILE_TYPE_FILE
        (kept (tokens ['a', ' ', 'b'])))) ∧
    ∀ q, kept (tokens q) = kept (tokens ['a', ' ', 'b']) →
      (VirtualFilesystem.mounted []).SameCalls ['a', ' ', 'b'] q := by
  obtain ⟨h, mp, hmp⟩ := mounted_ok []
  exact rejectsMalformed_iff h hmp FILE_TYPE_FILE ['a', ' ', 'b']

/-- `a b` and `a c` are both taken for `a`, which is created. -/
theorem malformed_creates :
    (VirtualFilesystem.mounted []).WellFormed ∧
      (∃ mp, (VirtualFilesystem.mounted []).mountpoints ['u', 'x', '0'] = some mp) ∧
      Malformed ['a', ' ', 'b'] ∧
      ((VirtualFilesystem.mounted []).createFile FILE_TYPE_FILE ['a', ' ', 'b']).map
        (fun r => (r.1.tree [], r.2)) = .ok (some [(['a'], FILE_TYPE_FILE)], true) ∧
      (VirtualFilesystem.mounted []).SameCalls ['a', ' ', 'b'] ['a', ' ', 'c'] ∧
      ¬ (VirtualFilesystem.mounted []).RejectsMalformed FILE_TYPE_FILE ['a', ' ', 'b'] := by
  obtain ⟨h, mp, hmp⟩ := mounted_ok []
  have hmalformed : Malformed ['a', ' ', 'b'] :=
    .inl ⟨' ', by simp, by decide, by decide, by decide⟩
  have hcreate : ((VirtualFilesystem.mounted []).createFile FILE_TYPE_FILE ['a', ' ', 'b']).map
      (fun r => (r.1.tree [], r.2)) = .ok (some [(['a'], FILE_TYPE_FILE)], true) := by
    decide +kernel
  have hkept : kept (tokens ['a', ' ', 'b']) = kept (tokens ['a', ' ', 'c']) := by
    decide +kernel
  refine ⟨h, ⟨mp, hmp⟩, hmalformed, hcreate,
    sameCalls_of_parse _ (by rw [parse_kept, parse_kept, hkept]), fun hrejects => ?_⟩
  obtain ⟨⟨⟨fs', hfalse, -⟩, -⟩, -⟩ := hrejects hmalformed
  rw [hfalse] at hcreate
  simp [Except.map] at hcreate

end Betavita.Vfs
