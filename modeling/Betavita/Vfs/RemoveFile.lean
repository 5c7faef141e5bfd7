import Betavita.Vfs.View

/-!
# vfs.cpp — removeFile and the path it is given

`removeFile` does not set the scanner to its path: it parses what the last call left there.
Its loop follows `..` but enters no directory, so that it never leaves the root.
-/

namespace Betavita.Vfs

open Ownership PathWalk Results

/-- The name that the loop of `removeFile` ends with. -/
def lastName (last : Name) (branches : List Name) : Name :=
  branches.foldl (fun last i => if i = ['.', '.'] ∨ i = ['.'] then last else i) last

theorem removeLoop_root (fs : VirtualFilesystem) {root : Ref} {d : Directory}
    (hd : fs.directories root = some d) (hself : d.previousDirectory = root) (last : Name)
    (branches : List Name) :
    removeLoop fs root last branches = .ok (root, lastName last branches) := by
  induction branches generalizing last with
  | nil => rfl
  | cons i branches ih =>
    rw [removeLoop, lastName, List.foldl_cons]
    by_cases hup : i = ['.', '.']
    · rw [if_pos hup, if_pos (.inl hup), fs.deref_eq hd, ok_bind, hself]
      exact ih last
    · rw [if_neg hup]
      by_cases hdot : i = ['.']
      · rw [if_pos hdot, if_pos (.inr hdot)]
        exact ih last
      · rw [if_neg hdot, if_neg (not_or.mpr ⟨hup, hdot⟩)]
        exact ih i

/-! ## The tree that is left -/

theorem Directory.without_findFile (d : Directory) (name n : Name) :
    (d.without name).findFile n = if n = name then none else d.findFile n := by
  rw [Directory.findFile, Directory.without, List.find?_filter]
  by_cases hn : n = name
  · rw [if_pos hn, List.find?_eq_none]
    intro file _
    simp [hn]
  · rw [if_neg hn, Directory.findFile]
    congr 1
    funext file
    have hne : file.name = n → file.name ≠ name := fun hname => hname ▸ hn
    simpa using hne

theorem Directory.without_entries (d : Directory) (name : Name) :
    (d.without name).entries = d.entries.filter fun e => decide (e.1 ≠ name) := by
  rw [Directory.entries, Directory.entries, List.filter_map]
  rfl

section Removed

variable {fs fs' : VirtualFilesystem} {root : Ref} {d : Directory} {file : AbstractFile}
  (hremoved : Removed fs fs' root d file) (h : fs.WellFormed)
  (hd : fs.directories root = some d) (hself : d.previousDirectory = root) (hfile : file ∈ d.files)
include hremoved h hd hself hfile

/-- Below a directory that is not freed the tree is the same. -/
theorem Removed.treeAt_below (path : List Name) {r : Ref} (hr : r ≠ root)
    (hfreed : ¬ fs.FreedWith file r) : fs'.treeAt r path = fs.treeAt r path := by
  have hkept := hremoved.kept r hr hfreed
  induction path generalizing r with
  | nil => rw [VirtualFilesystem.treeAt_nil, VirtualFilesystem.treeAt_nil, hkept]
  | cons n path ih =>
    rw [VirtualFilesystem.treeAt_cons, VirtualFilesystem.treeAt_cons, hkept]
    refine Option.bind_congr fun k hk => ?_
    obtain ⟨dr, hdr, hk⟩ := Option.bind_eq_some_iff.mp hk
    obtain ⟨file', hfile', hk⟩ := Option.bind_eq_some_iff.mp hk
    have hmem := (Directory.findFile_some hfile').1
    have hk_root : k ≠ root := by
      rintro rfl
      exact h.not_child_root hd hself ⟨dr, hdr, file', hmem, hk⟩
    have hk_freed := h.not_freed_child hd hfile hdr hfreed hmem hk fun heq => absurd heq hr
    exact ih hk_root hk_freed (hremoved.kept k hk_root hk_freed)

/-- Removing a file of the root removes its entry from the tree. -/
theorem Removed.treeAt_root (path : List Name) :
    fs'.treeAt root path = (fs.treeAt root).remove [file.name] path := by
  cases path with
  | nil =>
    have hparent := (fs.treeAt root).remove_parent [] file.name
    rw [List.nil_append] at hparent
    rw [hparent, VirtualFilesystem.treeAt_nil, VirtualFilesystem.treeAt_nil, hremoved.changed, hd,
      Option.map_some, Option.map_some, Option.map_some, Directory.without_entries]
  | cons n path =>
    rw [VirtualFilesystem.treeAt_cons, hremoved.changed, Option.bind_some,
      Directory.without_findFile]
    by_cases hn : n = file.name
    · rw [if_pos hn, Tree.remove, if_pos (by simp [hn])]
      rfl
    · rw [if_neg hn, Tree.remove, if_neg (by simpa using Ne.symm hn), if_neg (by simp),
        VirtualFilesystem.treeAt_cons, hd, Option.bind_some]
      refine Option.bind_congr fun k hk => ?_
      obtain ⟨file', hfile', hk⟩ := Option.bind_eq_some_iff.mp hk
      obtain ⟨hmem, hname⟩ := Directory.findFile_some hfile'
      have hother : root = root → file' ≠ file := by
        rintro - rfl
        exact hn hname.symm
      refine hremoved.treeAt_below h hd hself hfile path ?_ ?_
      · rintro rfl
        exact h.not_child_root hd hself ⟨d, hd, file', hmem, hk⟩
      · exact h.not_freed_child hd hfile hd (h.not_freed_self hd hfile) hmem hk hother

end Removed

/-! ## What is removed -/

section Mounted

variable {fs : VirtualFilesystem} (h : fs.WellFormed) {mp : MountPoint}
  (hmp : fs.mountpoints ['u', 'x', '0'] = some mp)
include h hmp

/-- Whatever the path, what goes is the entry of the root that has the last name of what the
scanner held. -/
theorem removeFile_eq (p : List Char) :
    ∃ fs', fs.removeFile p =
        .ok (fs', (fs.tree.kind [] (lastName [] (parse fs.scanner).1)).isSome) ∧
      fs'.tree = if (fs.tree.kind [] (lastName [] (parse fs.scanner).1)).isSome
        then fs.tree.remove [lastName [] (parse fs.scanner).1] else fs.tree := by
  obtain ⟨d, hd, hself⟩ := h.roots _ mp hmp
  have hwf := h.setScanner (parse fs.scanner).2
  have hroot := VirtualFilesystem.ux0Root_eq
    { fs with scanner := (parse fs.scanner).2 } hmp
  have hloop := removeLoop_root { fs with scanner := (parse fs.scanner).2 } hd hself []
    (parse fs.scanner).1
  have hderef := VirtualFilesystem.deref_eq
    { fs with scanner := (parse fs.scanner).2 } hd
  simp only [VirtualFilesystem.removeFile, hroot, hloop, hderef, ok_bind]
  rw [VirtualFilesystem.tree_kind_root hmp hd]
  generalize lastName [] (parse fs.scanner).1 = last
  cases hfile : d.findFile last with
  | none =>
    refine ⟨{ fs with scanner := (parse fs.scanner).2 }, ?_, rfl⟩
    simp only [Option.isSome_none, Bool.false_eq_true, if_false, ite_self]
    rfl
  | some file =>
    obtain ⟨hmem, rfl⟩ := Directory.findFile_some hfile
    obtain ⟨fs', hremove, hremoved⟩ := hwf.removeFrom hd hfile
    have hne : file.name.length ≠ 0 :=
      mt List.length_eq_zero_iff.mp ((h.ok _ d hd).valid file hmem).1
    have hmp' : fs'.mountpoints ['u', 'x', '0'] = some mp := by
      rw [hremoved.mountpoints]
      exact hmp
    refine ⟨fs', ?_, ?_⟩
    · simp only [Option.isSome_some, if_true, if_pos hne, hremove, ok_bind]
      rfl
    · rw [VirtualFilesystem.tree_eq hmp', VirtualFilesystem.tree_eq hmp]
      funext path
      exact hremoved.treeAt_root hwf hd hself hmem path

end Mounted

/-- Removing what the path names: the entry it resolves to, or nothing. -/
def VirtualFilesystem.Removes (fs : VirtualFilesystem) (p : List Char) : Prop :=
  ∃ fs' removed, fs.removeFile p = .ok (fs', removed) ∧
    match fs.resolve (parse p).1 with
    | some position => removed = true ∧ fs'.tree = fs.tree.remove position.path
    | none => removed = false ∧ fs'.tree = fs.tree

/-- `removeFile` removes what its path names if and only if that is the entry of the root with
the last name of what the scanner held, or if there is neither. -/
theorem removeFile_removes_iff {fs : VirtualFilesystem} (h : fs.WellFormed) {mp : MountPoint}
    (hmp : fs.mountpoints ['u', 'x', '0'] = some mp) {components : List Name} {n : Name}
    (hup : n ≠ ['.', '.']) (hdot : n ≠ ['.']) {p : List Char}
    (hp : RelPath (components ++ [n]) p) :
    fs.Removes p ↔
      match fs.resolve (components ++ [n]) with
      | some position => position.path = [lastName [] (parse fs.scanner).1]
      | none => fs.tree.kind [] (lastName [] (parse fs.scanner).1) = none := by
  obtain ⟨fs', hremove, htree⟩ := removeFile_eq h hmp p
  rw [VirtualFilesystem.Removes, hremove, hp.parse]
  generalize lastName [] (parse fs.scanner).1 = last at htree ⊢
  cases hresolve : fs.resolve (components ++ [n]) with
  | none =>
    constructor
    · rintro ⟨_, _, heq, hremoved, -⟩
      cases heq
      simpa using hremoved
    · intro hnone
      exact ⟨fs', _, rfl, by simp [hnone], by simp [htree, hnone]⟩
  | some position =>
    have hname : componentOf n = .name n := by rw [componentOf, if_neg hup, if_neg hdot]
    rw [VirtualFilesystem.resolve, List.map_append, List.map_singleton, hname] at hresolve
    obtain ⟨dir, hpath, hentry⟩ := resolve_name hresolve
    constructor
    · rintro ⟨_, _, heq, hremoved, htree'⟩
      cases heq
      rw [htree, if_pos hremoved, hpath] at htree'
      have hlast : (fs.tree.kind [] last).isSome := hremoved
      exact hpath.trans (Tree.remove_injective hlast htree').symm
    · intro hlast
      have hroot : dir ++ [n] = [] ++ [last] := hpath.symm.trans hlast
      obtain ⟨rfl, hn⟩ := List.append_inj' hroot rfl
      cases hn
      exact ⟨fs', _, rfl, hentry, by rw [htree, if_pos hentry, hpath]; rfl⟩

/-- With one file and nothing left in the scanner. -/
theorem removeFile_removes_iff_file :
    ∃ fs, [VfsCall.createFile FILE_TYPE_FILE ['a']].foldlM VirtualFilesystem.perform
        (.mounted []) = .ok fs ∧
      (fs.Removes ['.', '/', 'a'] ↔
        match fs.resolve [['.'], ['a']] with
        | some position => position.path = [lastName [] (parse fs.scanner).1]
        | none => fs.tree.kind [] (lastName [] (parse fs.scanner).1) = none) := by
  obtain ⟨h₀, mp, hmp₀⟩ := mounted_ok []
  obtain ⟨fs, hrun, h, hmp⟩ := run_ok h₀ hmp₀ [.createFile FILE_TYPE_FILE ['a']]
  have hp : RelPath ([['.']] ++ [['a']]) ['.', '/', 'a'] :=
    .cons (.of_all (by decide) (by decide)) 0 (.last (.of_all (by decide) (by decide)) 0)
  exact ⟨fs, hrun, removeFile_removes_iff h hmp (by decide) (by decide) hp⟩

/-- The file that was created is there, and is not removed. -/
theorem removeFile_leaves_file :
    ∃ fs, [VfsCall.createFile FILE_TYPE_FILE ['a']].foldlM VirtualFilesystem.perform
        (.mounted []) = .ok fs ∧
      fs.WellFormed ∧ (∃ mp, fs.mountpoints ['u', 'x', '0'] = some mp) ∧
      RelPath [['a']] ['a'] ∧ fs.resolve [['a']] = some ⟨[], some ['a']⟩ ∧
      ∃ fs', fs.removeFile ['a'] = .ok (fs', false) ∧ fs'.tree = fs.tree := by
  obtain ⟨h₀, mp, hmp₀⟩ := mounted_ok []
  obtain ⟨fs, hrun, h, hmp⟩ := run_ok h₀ hmp₀ [.createFile FILE_TYPE_FILE ['a']]
  have hresolve : fs.resolve [['a']] = some ⟨[], some ['a']⟩ :=
    eq_of_map_ok (fun fs => fs.resolve [['a']]) hrun (by decide +kernel)
  have hnone : fs.tree.kind [] (lastName [] (parse fs.scanner).1) = none :=
    eq_of_map_ok (fun fs => fs.tree.kind [] (lastName [] (parse fs.scanner).1)) hrun
      (by decide +kernel)
  obtain ⟨fs', hremove, htree⟩ := removeFile_eq h hmp ['a']
  rw [hnone] at hremove htree
  exact ⟨fs, hrun, h, ⟨mp, hmp⟩, .last (.of_all (by decide) (by decide)) 0, hresolve,
    fs', hremove, htree⟩

end Betavita.Vfs
