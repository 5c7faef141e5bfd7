import Betavita.Vfs.GetFile

/-!
# vfs.cpp — paths with dots in them

The loop of `getFile` keeps nothing of a `.`, and a `..` takes back all that the name of a
directory has changed: the directory pointer, the path and the stack of its earlier values.
-/

namespace Betavita.Vfs

open PathWalk Results

/-! ## The loop -/

/-- A `.` is passed over, wherever it stands. -/
theorem getLoop_dot (fs : VirtualFilesystem) (u v : List Name) (root : Ref)
    (currentPath : List Char) (oldPath : List (List Char)) :
    getLoop fs root currentPath oldPath (u ++ ['.'] :: v) =
      getLoop fs root currentPath oldPath (u ++ v) := by
  induction u generalizing root currentPath oldPath with
  | nil =>
    rw [List.nil_append, List.nil_append, getLoop.eq_def]
    simp
  | cons i u ih =>
    rw [List.cons_append, List.cons_append, getLoop.eq_def, getLoop.eq_def]
    simp only [ih]

/-- A directory that is entered and left. -/
theorem getLoop_enter_up {fs : VirtualFilesystem} (h : fs.WellFormed) {root : Ref}
    {d : Directory} (hd : fs.directories root = some d) {file : AbstractFile} {i : Name}
    (hfile : d.findFile i = some file) (htype : file.type = FILE_TYPE_DIRECTORY)
    (currentPath : List Char) (oldPath : List (List Char)) (v : List Name) :
    getLoop fs root currentPath oldPath (i :: ['.', '.'] :: v) =
      getLoop fs root currentPath oldPath v := by
  obtain ⟨hmem, rfl⟩ := Directory.findFile_some hfile
  obtain ⟨-, hdot, hup⟩ := (h.ok root d hd).valid file hmem
  obtain ⟨k, -, hcast, hchild⟩ := h.toDirectory hd hmem htype
  obtain ⟨dk, hdk, hprev⟩ := h.child_live hchild
  rw [getLoop_name hd hup hdot, hfile]
  simp only [if_pos htype, hcast, ok_bind]
  rw [getLoop_up hdk, hprev, pop]

/-- Behind a walk through directories. -/
theorem getLoop_walk_enter_up {fs : VirtualFilesystem} (h : fs.WellFormed) {mp : MountPoint}
    (hmp : fs.mountpoints ['u', 'x', '0'] = some mp) {u : List Name} {dir : List Name}
    (hu : fs.resolve u = some ⟨dir, none⟩) {d : Name}
    (hd : fs.tree.kind dir d = some FILE_TYPE_DIRECTORY) (v : List Name) :
    getLoop fs mp.root [] [] (u ++ d :: ['.', '.'] :: v) =
      getLoop fs mp.root [] [] (u ++ v) := by
  obtain ⟨dtop, htop, hself⟩ := h.roots _ mp hmp
  rw [VirtualFilesystem.resolve, ← looseWalk_strict, VirtualFilesystem.tree_eq hmp] at hu
  rw [VirtualFilesystem.tree_eq hmp] at hd
  obtain ⟨l, hl, hstrict⟩ := Option.bind_eq_some_iff.mp hu
  rcases (Follows.root fs mp.root).walk h htop hself u with
    ⟨hwalk, -⟩ | ⟨l', root, currentPath, oldPath, hwalk, hf, hloop⟩
  · rw [looseWalk, hwalk] at hl
    cases hl
  rw [looseWalk, hwalk] at hl
  cases hl
  have hposition : l.position = ⟨dir, none⟩ := by
    unfold Loose.strict at hstrict
    split_ifs at hstrict
    exact Option.some.inj hstrict
  have hdir : fs.dirAt mp.root dir = some root := by
    have hdir := hf.dir
    rwa [hposition] at hdir
  obtain ⟨droot, hroot⟩ := h.dirAt_live htop hdir
  rw [VirtualFilesystem.treeAt_kind hdir hroot] at hd
  obtain ⟨file, hfile, htype⟩ := Option.map_eq_some_iff.mp hd
  rw [hloop, hloop, getLoop_enter_up h hroot hfile htype]

/-! ## getFile -/

/-- For a path that is made of components `getFile` runs its loop over these. -/
theorem getFile_of_loop {fs : VirtualFilesystem} {mp : MountPoint}
    (hmp : fs.mountpoints ['u', 'x', '0'] = some mp) {components : List Name} {p s : List Char}
    (hp : RelPath components p)
    (hloop : getLoop { fs with scanner := [] } mp.root [] [] components = .ok s) :
    fs.getFile p = .ok ({ fs with scanner := [] }, s) := by
  have hrun : getLoop { fs with scanner := (parse p).2 } mp.root [] [] (parse p).1 = .ok s := by
    rw [hp.parse]
    exact hloop
  have hget := getFile_eq hmp hrun
  rw [hp.parse] at hget
  exact hget

/-- Paths over whose components the loop does the same. -/
theorem getFile_congr {fs : VirtualFilesystem} (h : fs.WellFormed) {mp : MountPoint}
    (hmp : fs.mountpoints ['u', 'x', '0'] = some mp) {components components' : List Name}
    {p p' : List Char} (hp : RelPath components p) (hp' : RelPath components' p')
    (hloop : getLoop { fs with scanner := [] } mp.root [] [] components =
      getLoop { fs with scanner := [] } mp.root [] [] components') :
    fs.getFile p = fs.getFile p' := by
  obtain ⟨s, hs⟩ := getLoop_ok ((h.setScanner []).ux0_sound hmp) [] [] components
  rw [getFile_of_loop hmp hp hs, getFile_of_loop hmp hp' (hloop ▸ hs)]

/-- In every tree that calls can build `getFile` yields the same with a `.` anywhere in the
path, and with a directory that is entered and left behind a walk through directories. -/
theorem getFile_normal (names : List Name) (calls : List VfsCall) :
    ∃ fs, calls.foldlM VirtualFilesystem.perform (.mounted names) = .ok fs ∧
      (∀ u v p p', RelPath (u ++ [['.']] ++ v) p → RelPath (u ++ v) p' →
        fs.getFile p = fs.getFile p') ∧
      ∀ u v dir d p p', fs.resolve u = some ⟨dir, none⟩ →
        fs.tree.kind dir d = some FILE_TYPE_DIRECTORY →
        RelPath (u ++ [d, ['.', '.']] ++ v) p → RelPath (u ++ v) p' →
        fs.getFile p = fs.getFile p' := by
  obtain ⟨h₀, mp, hmp₀⟩ := mounted_ok names
  obtain ⟨fs, hrun, h, hmp⟩ := run_ok h₀ hmp₀ calls
  refine ⟨fs, hrun, fun u v p p' hp hp' => ?_, fun u v dir d p p' hu hd hp hp' => ?_⟩
  · refine getFile_congr h hmp hp hp' ?_
    rw [List.append_assoc]
    exact getLoop_dot _ u v mp.root [] []
  · refine getFile_congr h hmp hp hp' ?_
    rw [List.append_assoc]
    exact getLoop_walk_enter_up (h.setScanner []) hmp hu hd v

/-- A directory with a directory and a file in it. -/
def nestedCalls : List VfsCall :=
  [.createFile FILE_TYPE_DIRECTORY ['d'], .createFile FILE_TYPE_DIRECTORY ['d', '/', 'e'],
    .createFile FILE_TYPE_FILE ['d', '/', 'f']]

/-- `d/./f` and `d/e/../f` are `d/f`. -/
theorem getFile_normal_nested :
    ∃ fs, nestedCalls.foldlM VirtualFilesystem.perform (.mounted []) = .ok fs ∧
      fs.getFile ['d', '/', '.', '/', 'f'] = fs.getFile ['d', '/', 'f'] ∧
      fs.getFile ['d', '/', 'e', '/', '.', '.', '/', 'f'] = fs.getFile ['d', '/', 'f'] := by
  obtain ⟨fs, hrun, hdot, hup⟩ := getFile_normal [] nestedCalls
  have hd : fs.resolve [['d']] = some ⟨[['d']], none⟩ :=
    eq_of_map_ok (fun fs => fs.resolve [['d']]) hrun (by decide +kernel)
  have he : fs.tree.kind [['d']] ['e'] = some FILE_TYPE_DIRECTORY :=
    eq_of_map_ok (fun fs => fs.tree.kind [['d']] ['e']) hrun (by decide +kernel)
  have hfile : RelPath [['f']] ['f'] := .last (.of_all (by decide) (by decide)) 0
  have hpath : RelPath [['d'], ['f']] ['d', '/', 'f'] :=
    .cons (.of_all (by decide) (by decide)) 0 hfile
  have hdotted : RelPath [['d'], ['.'], ['f']] ['d', '/', '.', '/', 'f'] :=
    .cons (.of_all (by decide) (by decide)) 0 (.cons (.of_all (by decide) (by decide)) 0 hfile)
  have hentered : RelPath [['d'], ['e'], ['.', '.'], ['f']]
      ['d', '/', 'e', '/', '.', '.', '/', 'f'] :=
    .cons (.of_all (by decide) (by decide)) 0 (.cons (.of_all (by decide) (by decide)) 0
      (.cons (.of_all (by decide) (by decide)) 0 hfile))
  exact ⟨fs, hrun, hdot [['d']] [['f']] _ _ hdotted hpath,
    hup [['d']] [['f']] [['d']] ['e'] _ _ hd he hentered hpath⟩

end Betavita.Vfs
