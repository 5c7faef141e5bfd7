import Betavita.Vfs.View

/-!
# vfs.cpp — getFile and the path it names

`getFile` keeps a directory pointer and, apart from it, the path as a string with a stack
of its earlier values. A regular file moves the string on and leaves the pointer where it
is, so that both go on from the directory of the file.
-/

namespace Betavita.Vfs

open PathWalk Results

/-- The names of a path, each followed by a slash. -/
def canonicalDir (path : List Name) : List Char := path.flatMap fun n => n ++ ['/']

/-- The canonical path of an entry: a directory with a slash behind it, a file without. -/
def canonical (p : Position Name) : List Char := canonicalDir p.dir ++ p.file.getD []

theorem canonicalDir_concat (path : List Name) (n : Name) :
    canonicalDir (path ++ [n]) = canonicalDir path ++ n ++ ['/'] := by
  simp [canonicalDir]

/-! ## The loose walk -/

/-- A walk that goes on from a regular file as from the directory the file lies in: where
it is, how many names are not taken back, and whether it went on from a file. -/
structure Loose where
  position : Position Name
  depth : Nat
  past : Bool

def Loose.root : Loose := ⟨.root, 0, false⟩

def looseStep (T : Tree Name Int) (l : Loose) : Component Name → Option Loose
  | .stay => some l
  | .up => some ⟨⟨l.position.dir.dropLast, none⟩, l.depth - 1, l.past || l.position.file.isSome⟩
  | .name n => (T.kind l.position.dir n).map fun k =>
      ⟨.entry l.position.dir n (isDirectory k), l.depth + 1, l.past || l.position.file.isSome⟩

def looseWalk (T : Tree Name Int) (components : List (Component Name)) : Option Loose :=
  components.foldlM (looseStep T) .root

/-- The loose walk goes on from a regular file and ends at an entry with a name that is not
taken back. -/
def VirtualFilesystem.GoesPastFile (fs : VirtualFilesystem) (components : List Name) : Prop :=
  ∃ l, looseWalk fs.tree (components.map componentOf) = some l ∧ l.past = true ∧ 0 < l.depth

/-- Where the walk proper is. -/
def Loose.strict (l : Loose) : Option (Position Name) :=
  if l.past then none else some l.position

theorem looseStep_strict (T : Tree Name Int) (l : Loose) (c : Component Name) :
    (looseStep T l c).bind Loose.strict = l.strict.bind fun p => step isDirectory T p c := by
  obtain ⟨⟨dir, file⟩, depth, past⟩ := l
  cases past with
  | true => cases c <;> simp [looseStep, Loose.strict]
  | false =>
    cases c with
    | stay => simp [looseStep, Loose.strict, step]
    | up => cases file <;> simp [looseStep, Loose.strict, step]
    | name n =>
      cases file <;> cases hkind : T.kind dir n <;> simp [looseStep, Loose.strict, step, hkind]

/-- Up to the first step on from a file the two walks are one. -/
theorem foldlM_looseStep (T : Tree Name Int) (components : List (Component Name)) (l : Loose) :
    (components.foldlM (looseStep T) l).bind Loose.strict =
      l.strict.bind fun p => components.foldlM (step isDirectory T) p := by
  induction components generalizing l with
  | nil => simp
  | cons c components ih =>
    calc ((c :: components).foldlM (looseStep T) l).bind Loose.strict
        = (looseStep T l c).bind fun l' =>
            (components.foldlM (looseStep T) l').bind Loose.strict := by
          rw [List.foldlM_cons]
          exact Option.bind_assoc ..
      _ = ((looseStep T l c).bind Loose.strict).bind fun p =>
            components.foldlM (step isDirectory T) p := by
          rw [Option.bind_assoc]
          simp only [ih]
      _ = l.strict.bind fun p => (c :: components).foldlM (step isDirectory T) p := by
          rw [looseStep_strict, Option.bind_assoc]
          rfl

theorem looseWalk_strict (T : Tree Name Int) (components : List (Component Name)) :
    (looseWalk T components).bind Loose.strict = PathWalk.resolve isDirectory T components :=
  foldlM_looseStep T components .root

/-! ## The stack of old paths -/

/-- The canonical paths on the way to the end of `path`, the last one first. -/
def earlier (path : List Name) : List (List Char) :=
  (List.range path.length).reverse.map fun k => canonicalDir (path.take k)

theorem earlier_concat (path : List Name) (n : Name) :
    earlier (path ++ [n]) = canonicalDir path :: earlier path := by
  have hshort : ∀ k ∈ (List.range path.length).reverse,
      canonicalDir ((path ++ [n]).take k) = canonicalDir (path.take k) := by
    intro k hk
    have hlt : k < path.length := by simpa using hk
    rw [List.take_append_of_le_length (Nat.le_of_lt hlt)]
  rw [earlier, List.length_append, List.length_singleton, List.range_succ, List.reverse_concat,
    List.map_cons, List.take_left, List.map_congr_left hshort, earlier]

theorem earlier_length (path : List Name) : (earlier path).length = path.length := by
  simp [earlier]

/-- Only the path at the bottom is empty. -/
def Rising : List Char → List (List Char) → Prop
  | currentPath, [] => currentPath = []
  | currentPath, back :: oldPath => currentPath ≠ [] ∧ Rising back oldPath

theorem Rising.eq_nil_iff {currentPath : List Char} {oldPath : List (List Char)}
    (h : Rising currentPath oldPath) : currentPath = [] ↔ oldPath = [] := by
  cases oldPath with
  | nil => simpa [Rising] using h
  | cons back oldPath => simpa using h.1

/-- `..` takes the last of the old paths, if there is one. -/
def pop (currentPath : List Char) : List (List Char) → List Char × List (List Char)
  | [] => (currentPath, [])
  | back :: oldPath => (back, oldPath)

theorem pop_length (currentPath : List Char) (oldPath : List (List Char)) :
    (pop currentPath oldPath).2.length = oldPath.length - 1 := by
  cases oldPath <;> rfl

theorem Rising.pop {currentPath : List Char} {oldPath : List (List Char)}
    (h : Rising currentPath oldPath) :
    Rising (Vfs.pop currentPath oldPath).1 (Vfs.pop currentPath oldPath).2 := by
  cases oldPath with
  | nil => exact h
  | cons back oldPath => exact h.2

/-- On the way to a directory it is the path of the parent. -/
theorem pop_earlier (dir : List Name) :
    pop (canonicalDir dir) (earlier dir) = (canonicalDir dir.dropLast, earlier dir.dropLast) := by
  induction dir using List.reverseRecOn with
  | nil => rfl
  | append_singleton dir n _ => rw [earlier_concat, pop, List.dropLast_concat]

theorem getLoop_up {fs : VirtualFilesystem} {root : Ref} {d : Directory}
    (hd : fs.directories root = some d) (currentPath : List Char) (oldPath : List (List Char))
    (branches : List Name) :
    getLoop fs root currentPath oldPath (['.', '.'] :: branches) =
      getLoop fs d.previousDirectory (pop currentPath oldPath).1 (pop currentPath oldPath).2
        branches := by
  rw [getLoop.eq_def]
  simp only [if_pos, fs.deref_eq hd, ok_bind]
  cases oldPath <;> rfl

theorem getLoop_name {fs : VirtualFilesystem} {root : Ref} {d : Directory}
    (hd : fs.directories root = some d) {i : Name} (hup : i ≠ ['.', '.']) (hdot : i ≠ ['.'])
    (currentPath : List Char) (oldPath : List (List Char)) (branches : List Name) :
    getLoop fs root currentPath oldPath (i :: branches) =
      match d.findFile i with
      | some file =>
        if file.type = FILE_TYPE_DIRECTORY then do
          let root ← file.toDirectory
          getLoop fs root (currentPath ++ file.name ++ ['/']) (currentPath :: oldPath) branches
        else getLoop fs root (currentPath ++ file.name) (currentPath :: oldPath) branches
      | none => .ok [] := by
  rw [getLoop.eq_def]
  simp only [if_neg hup, if_neg hdot, fs.deref_eq hd, ok_bind]
  rfl

/-! ## The loop -/

/-- What the loop of `getFile` holds after the steps of a loose walk. -/
structure Follows (fs : VirtualFilesystem) (top : Ref) (l : Loose) (root : Ref)
    (currentPath : List Char) (oldPath : List (List Char)) : Prop where
  dir : fs.dirAt top l.position.dir = some root
  depth : oldPath.length = l.depth
  rising : Rising currentPath oldPath
  exact : l.past = false →
    currentPath = canonical l.position ∧ oldPath = earlier l.position.path

theorem Follows.root (fs : VirtualFilesystem) (top : Ref) : Follows fs top .root top [] [] :=
  ⟨rfl, rfl, rfl, fun _ => ⟨rfl, rfl⟩⟩

/-- In a directory that was not reached past a file the stack is that of its path. -/
theorem Follows.exact_dir {fs : VirtualFilesystem} {top root : Ref} {l : Loose}
    {currentPath : List Char} {oldPath : List (List Char)}
    (hf : Follows fs top l root currentPath oldPath)
    (hpast : (l.past || l.position.file.isSome) = false) :
    currentPath = canonicalDir l.position.dir ∧ oldPath = earlier l.position.dir := by
  obtain ⟨hpast, hfile⟩ := Bool.or_eq_false_iff.mp hpast
  have hnone : l.position.file = none := by simpa using hfile
  obtain ⟨hcurrent, hold⟩ := hf.exact hpast
  simp only [canonical, Position.path, hnone, Option.getD_none, Option.toList_none,
    List.append_nil] at hcurrent hold
  exact ⟨hcurrent, hold⟩

section Loop

variable {fs : VirtualFilesystem} (h : fs.WellFormed) {top : Ref} {dtop : Directory}
  (htop : fs.directories top = some dtop) (hself : dtop.previousDirectory = top)
  {l : Loose} {root : Ref} {currentPath : List Char} {oldPath : List (List Char)}
  (hf : Follows fs top l root currentPath oldPath)
include h htop hself hf

/-- A step to the parent. -/
theorem Follows.up :
    ∃ l' root' currentPath' oldPath', looseStep (fs.treeAt top) l .up = some l' ∧
      Follows fs top l' root' currentPath' oldPath' ∧
      ∀ branches, getLoop fs root currentPath oldPath (['.', '.'] :: branches) =
        getLoop fs root' currentPath' oldPath' branches := by
  obtain ⟨d, hd⟩ := h.live ⟨dtop, htop⟩ (VirtualFilesystem.dirAt_inTree hf.dir)
  refine ⟨_, d.previousDirectory, (pop currentPath oldPath).1, (pop currentPath oldPath).2, rfl,
    ⟨h.dirAt_previous htop hself hf.dir hd, ?_, hf.rising.pop, fun hpast => ?_⟩,
    getLoop_up hd currentPath oldPath⟩
  · rw [pop_length, hf.depth]
  · obtain ⟨rfl, rfl⟩ := hf.exact_dir hpast
    rw [pop_earlier]
    simp [canonical, Position.path]

omit hself in
/-- A name is looked up in the directory of the pointer. -/
theorem Follows.name {i : Name} (hup : i ≠ ['.', '.']) (hdot : i ≠ ['.']) :
    (looseStep (fs.treeAt top) l (.name i) = none ∧
      ∀ branches, getLoop fs root currentPath oldPath (i :: branches) = .ok []) ∨
    ∃ l' root' currentPath' oldPath', looseStep (fs.treeAt top) l (.name i) = some l' ∧
      Follows fs top l' root' currentPath' oldPath' ∧
      ∀ branches, getLoop fs root currentPath oldPath (i :: branches) =
        getLoop fs root' currentPath' oldPath' branches := by
  obtain ⟨d, hd⟩ := h.live ⟨dtop, htop⟩ (VirtualFilesystem.dirAt_inTree hf.dir)
  have hkind := VirtualFilesystem.treeAt_kind hf.dir hd i
  cases hfile : d.findFile i with
  | none =>
    rw [hfile] at hkind
    refine .inl ⟨by rw [looseStep, hkind]; rfl, fun branches => ?_⟩
    rw [getLoop_name hd hup hdot, hfile]
  | some file =>
    rw [hfile] at hkind
    obtain ⟨hmem, rfl⟩ := Directory.findFile_some hfile
    have hne : file.name ≠ [] := ((h.ok root d hd).valid file hmem).1
    right
    by_cases htype : file.type = FILE_TYPE_DIRECTORY
    · obtain ⟨k, hk, hcast, -⟩ := h.toDirectory hd hmem htype
      refine ⟨_, k, currentPath ++ file.name ++ ['/'], currentPath :: oldPath,
        by rw [looseStep, hkind]; rfl, ⟨?_, ?_, ⟨by simp, hf.rising⟩, fun hpast => ?_⟩,
        fun branches => ?_⟩
      · have henter := VirtualFilesystem.dirAt_enter hf.dir hd hfile hk
        simpa [Position.entry, isDirectory, htype] using henter
      · simp [hf.depth]
      · obtain ⟨rfl, rfl⟩ := hf.exact_dir hpast
        rw [Position.entry_path, earlier_concat]
        simp [canonical, Position.entry, isDirectory, htype, canonicalDir_concat]
      · rw [getLoop_name hd hup hdot, hfile]
        simp only [if_pos htype, hcast, ok_bind]
    · refine ⟨_, root, currentPath ++ file.name, currentPath :: oldPath,
        by rw [looseStep, hkind]; rfl, ⟨?_, ?_, ⟨by simp [hne], hf.rising⟩, fun hpast => ?_⟩,
        fun branches => ?_⟩
      · simpa [Position.entry, isDirectory, htype] using hf.dir
      · simp [hf.depth]
      · obtain ⟨rfl, rfl⟩ := hf.exact_dir hpast
        rw [Position.entry_path, earlier_concat]
        simp [canonical, Position.entry, isDirectory, htype]
      · rw [getLoop_name hd hup hdot, hfile]
        simp only [if_neg htype]

/-- A step of the loop is a step of the loose walk. -/
theorem Follows.step (i : Name) :
    (looseStep (fs.treeAt top) l (componentOf i) = none ∧
      ∀ branches, getLoop fs root currentPath oldPath (i :: branches) = .ok []) ∨
    ∃ l' root' currentPath' oldPath', looseStep (fs.treeAt top) l (componentOf i) = some l' ∧
      Follows fs top l' root' currentPath' oldPath' ∧
      ∀ branches, getLoop fs root currentPath oldPath (i :: branches) =
        getLoop fs root' currentPath' oldPath' branches := by
  by_cases hup : i = ['.', '.']
  · subst hup
    exact .inr (hf.up h htop hself)
  · by_cases hdot : i = ['.']
    · subst hdot
      refine .inr ⟨l, root, currentPath, oldPath, rfl, hf, fun branches => ?_⟩
      rw [getLoop.eq_def]
      simp
    · rw [componentOf, if_neg hup, if_neg hdot]
      exact hf.name h htop hup hdot

/-- The loop fails where the loose walk does, and else goes on from where it ends. -/
theorem Follows.walk (components : List Name) :
    ((components.map componentOf).foldlM (looseStep (fs.treeAt top)) l = none ∧
      ∀ branches, getLoop fs root currentPath oldPath (components ++ branches) = .ok []) ∨
    ∃ l' root' currentPath' oldPath',
      (components.map componentOf).foldlM (looseStep (fs.treeAt top)) l = some l' ∧
      Follows fs top l' root' currentPath' oldPath' ∧
      ∀ branches, getLoop fs root currentPath oldPath (components ++ branches) =
        getLoop fs root' currentPath' oldPath' branches := by
  induction components generalizing l root currentPath oldPath with
  | nil => exact .inr ⟨l, root, currentPath, oldPath, rfl, hf, fun _ => rfl⟩
  | cons i components ih =>
    rw [List.map_cons, List.foldlM_cons]
    rcases hf.step h htop hself i with
      ⟨hstep, hloop⟩ | ⟨l', root', currentPath', oldPath', hstep, hf', hloop⟩
    · exact .inl ⟨by rw [hstep]; rfl, fun branches => hloop (components ++ branches)⟩
    · simp only [hstep, List.cons_append, hloop]
      exact ih hf'

theorem Follows.run (components : List Name) :
    (((components.map componentOf).foldlM (looseStep (fs.treeAt top)) l = none ∧
      getLoop fs root currentPath oldPath components = .ok []) ∨
    ∃ l' root' currentPath' oldPath',
      (components.map componentOf).foldlM (looseStep (fs.treeAt top)) l = some l' ∧
      Follows fs top l' root' currentPath' oldPath' ∧
      getLoop fs root currentPath oldPath components = .ok currentPath') := by
  rcases hf.walk h htop hself components with
    ⟨hwalk, hloop⟩ | ⟨l', root', currentPath', oldPath', hwalk, hf', hloop⟩
  · refine .inl ⟨hwalk, ?_⟩
    simpa using hloop []
  · refine .inr ⟨l', root', currentPath', oldPath', hwalk, hf', ?_⟩
    rw [← List.append_nil components, hloop, getLoop]

end Loop

/-- `getFile` walks loosely over the branches of its path. -/
theorem getFile_walk {fs : VirtualFilesystem} (h : fs.WellFormed) {mp : MountPoint}
    (hmp : fs.mountpoints ['u', 'x', '0'] = some mp) (p : List Char) :
    (looseWalk fs.tree ((parse p).1.map componentOf) = none ∧
      fs.getFile p = .ok ({ fs with scanner := (parse p).2 }, [])) ∨
    ∃ l s, looseWalk fs.tree ((parse p).1.map componentOf) = some l ∧
      fs.getFile p = .ok ({ fs with scanner := (parse p).2 }, s) ∧ (s = [] ↔ l.depth = 0) ∧
      (l.past = false → s = canonical l.position ∧ l.depth = l.position.path.length) := by
  obtain ⟨d, hd, hself⟩ := h.roots _ mp hmp
  rw [VirtualFilesystem.tree_eq hmp]
  rcases (Follows.root { fs with scanner := (parse p).2 } mp.root).run
    (h.setScanner (parse p).2) hd hself (parse p).1 with
      ⟨hwalk, hloop⟩ | ⟨l, root, currentPath, oldPath, hwalk, hf, hloop⟩
  · exact .inl ⟨hwalk, getFile_eq hmp hloop⟩
  · refine .inr ⟨l, currentPath, hwalk, getFile_eq hmp hloop, ?_, fun hpast => ?_⟩
    · rw [hf.rising.eq_nil_iff, ← hf.depth, List.length_eq_zero_iff]
    · obtain ⟨hcurrent, hold⟩ := hf.exact hpast
      exact ⟨hcurrent, by rw [← hf.depth, hold, earlier_length]⟩

theorem getFile_looseWalk {fs : VirtualFilesystem} (h : fs.WellFormed) {mp : MountPoint}
    (hmp : fs.mountpoints ['u', 'x', '0'] = some mp) {components : List Name} {p : List Char}
    (hp : RelPath components p) :
    (looseWalk fs.tree (components.map componentOf) = none ∧
      fs.getFile p = .ok ({ fs with scanner := [] }, [])) ∨
    ∃ l s, looseWalk fs.tree (components.map componentOf) = some l ∧
      fs.getFile p = .ok ({ fs with scanner := [] }, s) ∧ (s = [] ↔ l.depth = 0) ∧
      (l.past = false → s = canonical l.position ∧ l.depth = l.position.path.length) := by
  have hwalk := getFile_walk h hmp p
  rw [hp.parse] at hwalk
  exact hwalk

/-- `getFile` yields the canonical path of the entry that its path resolves to, or the empty
string if there is none, except where the loose walk goes past a file. -/
theorem getFile_resolve_iff {fs : VirtualFilesystem} (h : fs.WellFormed) {mp : MountPoint}
    (hmp : fs.mountpoints ['u', 'x', '0'] = some mp) {components : List Name} {p : List Char}
    (hp : RelPath components p) :
    ∃ s, fs.getFile p = .ok ({ fs with scanner := [] }, s) ∧
      (s = (match fs.resolve components with
        | none => []
        | some position => canonical position) ↔ ¬ fs.GoesPastFile components) := by
  have hstrict : (looseWalk fs.tree (components.map componentOf)).bind Loose.strict =
      fs.resolve components := looseWalk_strict ..
  rcases getFile_looseWalk h hmp hp with ⟨hwalk, hget⟩ | ⟨l, s, hwalk, hget, hempty, hexact⟩
  · rw [hwalk] at hstrict
    refine ⟨[], hget, ?_⟩
    simp [← hstrict, VirtualFilesystem.GoesPastFile, hwalk]
  · rw [hwalk, Option.bind_some, Loose.strict] at hstrict
    refine ⟨s, hget, ?_⟩
    cases hpast : l.past with
    | false =>
      rw [hpast] at hstrict
      simp [← hstrict, VirtualFilesystem.GoesPastFile, hwalk, hpast, (hexact hpast).1]
    | true =>
      rw [hpast] at hstrict
      simp [← hstrict, VirtualFilesystem.GoesPastFile, hwalk, hpast, hempty]

/-- Two files side by side. -/
def besideCalls : List VfsCall :=
  [.createFile FILE_TYPE_FILE ['a'], .createFile FILE_TYPE_FILE ['b']]

theorem besideCalls_path : RelPath [['a'], ['b']] ['a', '/', 'b'] :=
  .cons (.of_all (by decide) (by decide)) 0 (.last (.of_all (by decide) (by decide)) 0)

theorem getFile_resolve_iff_beside :
    ∃ fs s, besideCalls.foldlM VirtualFilesystem.perform (.mounted []) = .ok fs ∧
      fs.getFile ['a', '/', 'b'] = .ok ({ fs with scanner := [] }, s) ∧
      (s = (match fs.resolve [['a'], ['b']] with
        | none => []
        | some position => canonical position) ↔ ¬ fs.GoesPastFile [['a'], ['b']]) := by
  obtain ⟨h₀, mp, hmp₀⟩ := mounted_ok []
  obtain ⟨fs, hrun, h, hmp⟩ := run_ok h₀ hmp₀ besideCalls
  obtain ⟨s, hget, hiff⟩ := getFile_resolve_iff h hmp besideCalls_path
  exact ⟨fs, s, hrun, hget, hiff⟩

/-- A path through one file to the other resolves to nothing, and `getFile` yields `ab`. -/
theorem getFile_goes_past_file :
    ∃ fs, besideCalls.foldlM VirtualFilesystem.perform (.mounted []) = .ok fs ∧
      fs.WellFormed ∧ (∃ mp, fs.mountpoints ['u', 'x', '0'] = some mp) ∧
      RelPath [['a'], ['b']] ['a', '/', 'b'] ∧ fs.resolve [['a'], ['b']] = none ∧
      ∃ fs', fs.getFile ['a', '/', 'b'] = .ok (fs', ['a', 'b']) := by
  obtain ⟨h₀, mp, hmp₀⟩ := mounted_ok []
  obtain ⟨fs, hrun, h, hmp⟩ := run_ok h₀ hmp₀ besideCalls
  have hresolve : fs.resolve [['a'], ['b']] = none :=
    eq_of_map_ok (fun fs => fs.resolve [['a'], ['b']]) hrun (by decide +kernel)
  have hget : (fs.getFile ['a', '/', 'b']).map Prod.snd = .ok ['a', 'b'] :=
    eq_of_map_ok (fun fs => (fs.getFile ['a', '/', 'b']).map Prod.snd) hrun (by decide +kernel)
  refine ⟨fs, hrun, h, ⟨mp, hmp⟩, besideCalls_path, hresolve, ?_⟩
  obtain ⟨s, hs⟩ := getFile_ok h hmp ['a', '/', 'b']
  have hs' : s = ['a', 'b'] := eq_of_map_ok Prod.snd hs hget
  exact ⟨_, hs' ▸ hs⟩

end Betavita.Vfs
