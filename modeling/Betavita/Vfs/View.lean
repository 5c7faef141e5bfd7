import Betavita.Lib.PathWalk
import Betavita.Vfs.Run
import Mathlib.Data.List.Induction

/-!
# vfs.cpp — the tree of `ux0`

The files of the directories below the mount point, by their paths, are a tree in the
sense of the path walks. A pointer to a directory of it stands for the path there, and
`..` for the path without its last name.
-/

namespace Betavita.Vfs

open Ownership PathWalk

/-- The directory that `path` leads to. -/
def VirtualFilesystem.dirAt (fs : VirtualFilesystem) (root : Ref) (path : List Name) :
    Option Ref :=
  path.foldlM (fun r n => (fs.directories r).bind fun d =>
    (d.findFile n).bind AbstractFile.directory) root

/-- Names and types of the files of a directory. -/
def Directory.entries (d : Directory) : List (Name × Int) :=
  d.files.map fun file => (file.name, file.type)

/-- The tree below a directory. -/
def VirtualFilesystem.treeAt (fs : VirtualFilesystem) (root : Ref) : Tree Name Int := fun path =>
  (fs.dirAt root path).bind fun r => (fs.directories r).map Directory.entries

/-- The tree of `ux0`. -/
def VirtualFilesystem.tree (fs : VirtualFilesystem) : Tree Name Int := fun path =>
  (fs.mountpoints ['u', 'x', '0']).bind fun mp => fs.treeAt mp.root path

def isDirectory (type : Int) : Bool := decide (type = FILE_TYPE_DIRECTORY)

/-- What a component of a path asks for. -/
def componentOf (i : Name) : Component Name :=
  if i = ['.', '.'] then .up else if i = ['.'] then .stay else .name i

/-- The position that the components of a path lead to. -/
def VirtualFilesystem.resolve (fs : VirtualFilesystem) (components : List Name) :
    Option (Position Name) :=
  PathWalk.resolve isDirectory fs.tree (components.map componentOf)

theorem VirtualFilesystem.tree_eq {fs : VirtualFilesystem} {mp : MountPoint}
    (h : fs.mountpoints ['u', 'x', '0'] = some mp) : fs.tree = fs.treeAt mp.root := by
  funext path
  rw [VirtualFilesystem.tree, h, Option.bind_some]

theorem VirtualFilesystem.dirAt_nil (fs : VirtualFilesystem) (root : Ref) :
    fs.dirAt root [] = some root := rfl

theorem VirtualFilesystem.dirAt_concat (fs : VirtualFilesystem) (root : Ref) (path : List Name)
    (n : Name) :
    fs.dirAt root (path ++ [n]) = (fs.dirAt root path).bind fun r =>
      (fs.directories r).bind fun d => (d.findFile n).bind AbstractFile.directory := by
  simp [VirtualFilesystem.dirAt, List.foldlM_append]

theorem VirtualFilesystem.dirAt_enter {fs : VirtualFilesystem} {root r k : Ref}
    {path : List Name} {d : Directory} {n : Name} {file : AbstractFile}
    (hr : fs.dirAt root path = some r) (hd : fs.directories r = some d)
    (hfile : d.findFile n = some file) (hk : file.directory = some k) :
    fs.dirAt root (path ++ [n]) = some k := by
  rw [VirtualFilesystem.dirAt_concat, hr, Option.bind_some, hd, Option.bind_some, hfile,
    Option.bind_some, hk]

/-- The last step to a directory. -/
theorem VirtualFilesystem.dirAt_concat_some {fs : VirtualFilesystem} {root k : Ref}
    {path : List Name} {n : Name} (h : fs.dirAt root (path ++ [n]) = some k) :
    ∃ r d file, fs.dirAt root path = some r ∧ fs.directories r = some d ∧
      d.findFile n = some file ∧ file.directory = some k := by
  rw [VirtualFilesystem.dirAt_concat] at h
  obtain ⟨r, hr, h⟩ := Option.bind_eq_some_iff.mp h
  obtain ⟨d, hd, h⟩ := Option.bind_eq_some_iff.mp h
  obtain ⟨file, hfile, hk⟩ := Option.bind_eq_some_iff.mp h
  exact ⟨r, d, file, hr, hd, hfile, hk⟩

theorem VirtualFilesystem.dirAt_inTree {fs : VirtualFilesystem} {root r : Ref}
    {path : List Name} (h : fs.dirAt root path = some r) : fs.InTree root r := by
  induction path using List.reverseRecOn generalizing r with
  | nil =>
    cases h
    exact .refl
  | append_singleton path n ih =>
    obtain ⟨r₀, d, file, hr₀, hd, hfile, hk⟩ := VirtualFilesystem.dirAt_concat_some h
    exact (ih hr₀).tail ⟨d, hd, file, (Directory.findFile_some hfile).1, hk⟩

/-- `previousDirectory` drops the last name of the path, and stays at the root. -/
theorem VirtualFilesystem.WellFormed.dirAt_previous {fs : VirtualFilesystem} (h : fs.WellFormed)
    {root r : Ref} {droot d : Directory} (hroot : fs.directories root = some droot)
    (hself : droot.previousDirectory = root) {path : List Name}
    (hr : fs.dirAt root path = some r) (hd : fs.directories r = some d) :
    fs.dirAt root path.dropLast = some d.previousDirectory := by
  induction path using List.reverseRecOn with
  | nil =>
    cases hr
    rw [hroot] at hd
    cases hd
    rw [hself]
    rfl
  | append_singleton path n _ =>
    obtain ⟨r₀, d₀, file, hr₀, hd₀, hfile, hk⟩ := VirtualFilesystem.dirAt_concat_some hr
    obtain ⟨d', hd', hprev⟩ :=
      h.child_live ⟨d₀, hd₀, file, (Directory.findFile_some hfile).1, hk⟩
    rw [hd] at hd'
    cases hd'
    rw [List.dropLast_concat, hr₀, hprev]

theorem VirtualFilesystem.treeAt_of_dirAt {fs : VirtualFilesystem} {root r : Ref}
    {path : List Name} {d : Directory} (hr : fs.dirAt root path = some r)
    (hd : fs.directories r = some d) : fs.treeAt root path = some d.entries := by
  rw [VirtualFilesystem.treeAt, hr, Option.bind_some, hd, Option.map_some]

theorem VirtualFilesystem.treeAt_nil (fs : VirtualFilesystem) (root : Ref) :
    fs.treeAt root [] = (fs.directories root).map Directory.entries := rfl

/-- The tree below an entry of the directory. -/
theorem VirtualFilesystem.treeAt_cons (fs : VirtualFilesystem) (root : Ref) (n : Name)
    (path : List Name) :
    fs.treeAt root (n :: path) =
      ((fs.directories root).bind fun d => (d.findFile n).bind AbstractFile.directory).bind
        fun k => fs.treeAt k path :=
  Option.bind_assoc ..

/-- Looking up a name in the tree is looking for the file. -/
theorem VirtualFilesystem.treeAt_kind {fs : VirtualFilesystem} {root r : Ref}
    {path : List Name} {d : Directory} (hr : fs.dirAt root path = some r)
    (hd : fs.directories r = some d) (n : Name) :
    (fs.treeAt root).kind path n = (d.findFile n).map AbstractFile.type := by
  rw [Tree.kind, VirtualFilesystem.treeAt_of_dirAt hr hd, Option.bind_some, Directory.entries,
    List.find?_map, Option.map_map]
  rfl

theorem VirtualFilesystem.tree_kind_root {fs : VirtualFilesystem} {mp : MountPoint}
    (h : fs.mountpoints ['u', 'x', '0'] = some mp) {d : Directory}
    (hd : fs.directories mp.root = some d) (n : Name) :
    fs.tree.kind [] n = (d.findFile n).map AbstractFile.type := by
  rw [VirtualFilesystem.tree_eq h]
  exact VirtualFilesystem.treeAt_kind (fs.dirAt_nil mp.root) hd n

section WellFormed

variable {fs : VirtualFilesystem} (h : fs.WellFormed) {root : Ref} {droot : Directory}
  (hroot : fs.directories root = some droot)
include h hroot

theorem VirtualFilesystem.WellFormed.dirAt_live {r : Ref} {path : List Name}
    (hr : fs.dirAt root path = some r) : ∃ d, fs.directories r = some d :=
  h.live ⟨droot, hroot⟩ (VirtualFilesystem.dirAt_inTree hr)

/-- Every directory has one path. -/
theorem VirtualFilesystem.WellFormed.dirAt_injective (hself : droot.previousDirectory = root)
    {r : Ref} {path path' : List Name} (hr : fs.dirAt root path = some r)
    (hr' : fs.dirAt root path' = some r) : path = path' := by
  -- the root is at the end of no other path
  have hnil : ∀ path n, fs.dirAt root (path ++ [n]) ≠ some root := by
    intro path n hpath
    obtain ⟨_, d, file, -, hd, hfile, hk⟩ := VirtualFilesystem.dirAt_concat_some hpath
    exact h.not_child_root hroot hself ⟨d, hd, file, (Directory.findFile_some hfile).1, hk⟩
  induction path using List.reverseRecOn generalizing r path' with
  | nil =>
    cases hr
    rcases List.eq_nil_or_concat' path' with rfl | ⟨path', n', rfl⟩
    · rfl
    · exact absurd hr' (hnil path' n')
  | append_singleton path n ih =>
    rcases List.eq_nil_or_concat' path' with rfl | ⟨path', n', rfl⟩
    · cases hr'
      exact absurd hr (hnil path n)
    · obtain ⟨r₁, d, file, hr₁, hd, hfile, hk⟩ := VirtualFilesystem.dirAt_concat_some hr
      obtain ⟨r₂, d', file', hr₂, hd', hfile', hk'⟩ := VirtualFilesystem.dirAt_concat_some hr'
      obtain ⟨hmem, rfl⟩ := Directory.findFile_some hfile
      obtain ⟨hmem', rfl⟩ := Directory.findFile_some hfile'
      have howner : r₂ = r₁ := (h.forest.owner_eq ⟨d', hd', file', hmem', hk'⟩).symm.trans
        (h.forest.owner_eq ⟨d, hd, file, hmem, hk⟩)
      subst howner
      rw [hd] at hd'
      cases hd'
      rw [ih hr₁ hr₂, (h.ok _ d hd).file_eq hmem hmem' hk hk']

/-- The directories of the tree are those that have the tag of one. -/
theorem VirtualFilesystem.WellFormed.treeAt_proper : (fs.treeAt root).Proper isDirectory where
  root := by
    rw [VirtualFilesystem.treeAt_nil, hroot]
    rfl
  below path n := by
    rw [VirtualFilesystem.treeAt, VirtualFilesystem.dirAt_concat]
    cases hr : fs.dirAt root path with
    | none => simp [Tree.kind, VirtualFilesystem.treeAt, hr]
    | some r =>
      obtain ⟨d, hd⟩ := h.dirAt_live hroot hr
      rw [VirtualFilesystem.treeAt_kind hr hd, Option.bind_some, hd, Option.bind_some]
      cases hfile : d.findFile n with
      | none => simp
      | some file =>
        have hmem := (Directory.findFile_some hfile).1
        have htag := (h.ok r d hd).tagged file hmem
        simp only [Option.bind_some, Option.map_some, Option.some.injEq, exists_eq_left',
          isDirectory, decide_eq_true_eq, htag]
        cases hk : file.directory with
        | none => simp
        | some k =>
          obtain ⟨d', hd', -⟩ := h.child_live ⟨d, hd, file, hmem, hk⟩
          simp [hd']

end WellFormed

theorem VirtualFilesystem.WellFormed.tree_proper {fs : VirtualFilesystem} (h : fs.WellFormed)
    {mp : MountPoint} (hmp : fs.mountpoints ['u', 'x', '0'] = some mp) :
    fs.tree.Proper isDirectory := by
  obtain ⟨d, hd, -⟩ := h.roots _ mp hmp
  rw [VirtualFilesystem.tree_eq hmp]
  exact h.treeAt_proper hd

end Betavita.Vfs
