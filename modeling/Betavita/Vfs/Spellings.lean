import Betavita.Vfs.CreateFile

/-!
# vfs.cpp — slashes and mount points in front of a path

The scanner yields a token for slashes in front and one for a colon, but `parse` only knows
slashes behind a name: a slash in front becomes a branch, and a colon ends the walk.
-/

namespace Betavita.Vfs

open Ownership PathWalk Results

/-- Two spellings of a path for which the calls do the same. -/
def VirtualFilesystem.SameCalls (fs : VirtualFilesystem) (p p' : List Char) : Prop :=
  (fs.getFile p').map Prod.snd = (fs.getFile p).map Prod.snd ∧
    ∀ fileType, (fs.createFile fileType p').map (fun r => (r.1.tree, r.2)) =
      (fs.createFile fileType p).map fun r => (r.1.tree, r.2)

/-- Two spellings of a path that have the same components, and for which the calls do the
same. -/
def VirtualFilesystem.SameFor (fs : VirtualFilesystem) (p p' : List Char) : Prop :=
  (parse p').1 = (parse p).1 ∧ fs.SameCalls p p'

/-! ## The same components -/

theorem getLoop_scanner (fs : VirtualFilesystem) (scanner : List Char) (root : Ref)
    (currentPath : List Char) (oldPath : List (List Char)) (branches : List Name) :
    getLoop { fs with scanner := scanner } root currentPath oldPath branches =
      getLoop fs root currentPath oldPath branches := by
  have hderef : ∀ r, VirtualFilesystem.deref { fs with scanner := scanner } r = fs.deref r :=
    fun _ => rfl
  induction branches generalizing root currentPath oldPath with
  | nil => rfl
  | cons i branches ih =>
    rw [getLoop.eq_def, getLoop.eq_def]
    simp only [hderef, ih]

theorem addFile_scanner (fs : VirtualFilesystem) (scanner : List Char) (root : Ref)
    (file : AbstractFile) :
    VirtualFilesystem.addFile { fs with scanner := scanner } root file =
      (fs.addFile root file).map fun fs' => { fs' with scanner := scanner } := by
  have hderef : VirtualFilesystem.deref { fs with scanner := scanner } root = fs.deref root := rfl
  rw [VirtualFilesystem.addFile, VirtualFilesystem.addFile, hderef]
  cases fs.deref root <;> rfl

theorem createLoop_scanner (fileType : Int) (size : Nat) (fs : VirtualFilesystem)
    (scanner : List Char) (root : Ref) (x : Nat) (branches : List Name) :
    createLoop fileType size { fs with scanner := scanner } root x branches =
      (createLoop fileType size fs root x branches).map fun r =>
        ({ r.1 with scanner := scanner }, r.2) := by
  induction branches generalizing fs root x with
  | nil => rfl
  | cons i branches ih =>
    have hderef : VirtualFilesystem.deref { fs with scanner := scanner } root = fs.deref root := rfl
    -- the loop goes on the same after a file was added
    have hadd : ∀ (fs₁ : VirtualFilesystem) (file : AbstractFile),
        (do
          let fs₂ ← VirtualFilesystem.addFile { fs₁ with scanner := scanner } root file
          createLoop fileType size fs₂ root (x + 1) branches) =
        (do
          let fs₂ ← fs₁.addFile root file
          createLoop fileType size fs₂ root (x + 1) branches).map
            fun r : VirtualFilesystem × Bool => ({ r.1 with scanner := scanner }, r.2) := by
      intro fs₁ file
      rw [addFile_scanner]
      cases fs₁.addFile root file with
      | error fault => rfl
      | ok fs₂ => exact ih fs₂ root (x + 1)
    rw [createLoop.eq_def, createLoop.eq_def]
    simp only [hderef]
    by_cases hup : i = ['.', '.']
    · simp only [if_pos hup]
      cases fs.deref root with
      | error fault => rfl
      | ok d => exact ih fs d.previousDirectory (x + 1)
    by_cases hdot : i = ['.']
    · simp only [if_neg hup, if_pos hdot]
      exact ih fs root (x + 1)
    simp only [if_neg hup, if_neg hdot]
    cases fs.deref root with
    | error fault => rfl
    | ok d =>
      simp only [ok_bind]
      cases d.findFile i with
      | some file =>
        dsimp only
        split_ifs
        · rfl
        · cases file.toDirectory with
          | error fault => rfl
          | ok k => exact ih fs k (x + 1)
      | none =>
        dsimp only
        split_ifs
        · rfl
        · exact hadd (fs.newDirectory root) _
        · rfl
        · exact hadd fs _
        · rfl

/-- The calls know their path by its components. -/
theorem sameCalls_of_parse (fs : VirtualFilesystem) {p p' : List Char}
    (h : (parse p').1 = (parse p).1) : fs.SameCalls p p' := by
  have hget : ∀ q, (fs.getFile q).map Prod.snd =
      fs.ux0Root >>= fun root => getLoop fs root [] [] (parse q).1 := by
    intro q
    have hroot : VirtualFilesystem.ux0Root { fs with scanner := (parse q).2 } = fs.ux0Root := rfl
    simp only [VirtualFilesystem.getFile, hroot, getLoop_scanner]
    cases fs.ux0Root with
    | error fault => rfl
    | ok root => cases hrun : getLoop fs root [] [] (parse q).1 <;> simp [hrun, ok_bind] <;> rfl
  have hcreate : ∀ fileType q, (fs.createFile fileType q).map (fun r => (r.1.tree, r.2)) =
      fs.ux0Root >>= fun root =>
        (createLoop fileType (parse q).1.length fs root 0 (parse q).1).map
          fun r => (r.1.tree, r.2) := by
    intro fileType q
    have hroot : VirtualFilesystem.ux0Root { fs with scanner := (parse q).2 } = fs.ux0Root := rfl
    simp only [VirtualFilesystem.createFile, hroot, createLoop_scanner]
    cases fs.ux0Root with
    | error fault => rfl
    | ok root =>
      simp only [ok_bind]
      cases createLoop fileType (parse q).1.length fs root 0 (parse q).1 <;> rfl
  exact ⟨by rw [hget, hget, h], fun fileType => by rw [hcreate, hcreate, h]⟩

/-! ## A slash in front -/

theorem IsComponent.head_ne_slash {c : Name} (hc : IsComponent c) (s : List Char) :
    (c ++ s).head? ≠ some '/' := by
  cases c with
  | nil => exact absurd rfl hc.ne
  | cons x xs =>
    rw [List.cons_append, List.head?_cons]
    rintro hx
    cases hx
    exact absurd (hc.ident '/' (List.mem_cons_self ..)) (by decide)

/-- No path that is made of components begins with a slash. -/
theorem getLoop_head {fs : VirtualFilesystem} {branches : List Name}
    (hbranches : ∀ i ∈ branches, IsComponent i) {root : Ref} {currentPath s : List Char}
    {oldPath : List (List Char)} (hcurrent : currentPath.head? ≠ some '/')
    (hold : ∀ back ∈ oldPath, back.head? ≠ some '/')
    (hrun : getLoop fs root currentPath oldPath branches = .ok s) : s.head? ≠ some '/' := by
  induction branches generalizing root currentPath oldPath with
  | nil =>
    cases hrun
    exact hcurrent
  | cons i branches ih =>
    have hi : IsComponent i := hbranches i (List.mem_cons_self ..)
    have hbranches' : ∀ i ∈ branches, IsComponent i :=
      fun i hi => hbranches i (List.mem_cons_of_mem _ hi)
    have happend : ∀ s, (currentPath ++ (i ++ s)).head? ≠ some '/' := by
      intro s
      cases currentPath with
      | nil => exact hi.head_ne_slash s
      | cons x xs => exact hcurrent
    have hpush : ∀ back ∈ currentPath :: oldPath, back.head? ≠ some '/' := by
      simpa using ⟨hcurrent, hold⟩
    rw [getLoop.eq_def] at hrun
    dsimp only at hrun
    split_ifs at hrun with hup hdot
    · obtain ⟨d, -, hrun⟩ := bind_ok.mp hrun
      cases oldPath with
      | nil => exact ih hbranches' hcurrent hold hrun
      | cons back oldPath =>
        exact ih hbranches' (hold back (List.mem_cons_self ..))
          (fun back' hback' => hold back' (List.mem_cons_of_mem _ hback')) hrun
    · exact ih hbranches' hcurrent hold hrun
    · obtain ⟨d, -, hrun⟩ := bind_ok.mp hrun
      cases hfile : d.findFile i with
      | none =>
        rw [hfile] at hrun
        cases hrun
        simp
      | some file =>
        obtain ⟨-, rfl⟩ := Directory.findFile_some hfile
        rw [hfile] at hrun
        dsimp only at hrun
        split_ifs at hrun with htype
        · obtain ⟨k, -, hrun⟩ := bind_ok.mp hrun
          rw [List.append_assoc] at hrun
          exact ih hbranches' (happend ['/']) hpush hrun
        · exact ih hbranches' (by simpa using happend []) hpush hrun

section Mounted

variable {fs : VirtualFilesystem} (h : fs.WellFormed) {mp : MountPoint}
  (hmp : fs.mountpoints ['u', 'x', '0'] = some mp) {components : List Name} {p : List Char}
  (hp : RelPath components p)
include h hmp hp

theorem getFile_head : ∃ s, fs.getFile p = .ok ({ fs with scanner := [] }, s) ∧
    s.head? ≠ some '/' := by
  have hbranches : ∀ i ∈ (parse p).1, IsComponent i := by
    rw [hp.parse]
    exact hp.isComponent
  obtain ⟨s, hloop⟩ := getLoop_ok ((h.setScanner (parse p).2).ux0_sound hmp) [] [] (parse p).1
  have hget := getFile_eq hmp hloop
  rw [hp.parse] at hget
  exact ⟨s, hget, getLoop_head hbranches (by simp) (by simp) hloop⟩

/-- Behind a slash `getFile` yields the entry of the root that is named so, if there is one. -/
theorem getFile_slash (hentry : (fs.tree.kind [] ['/']).isSome) :
    ∃ fs' s, fs.getFile ('/' :: p) = .ok (fs', s) ∧ s.head? = some '/' := by
  obtain ⟨d, hd, -⟩ := h.roots _ mp hmp
  obtain ⟨rest, hparse⟩ : ∃ rest, parse ('/' :: p) = ([['/']], rest) :=
    ⟨_, Prod.ext hp.parse_slash rfl⟩
  have hroot := VirtualFilesystem.ux0Root_eq { fs with scanner := rest } hmp
  have hderef := VirtualFilesystem.deref_eq { fs with scanner := rest } hd
  rw [VirtualFilesystem.tree_kind_root hmp hd, Option.isSome_map] at hentry
  obtain ⟨file, hfile⟩ := Option.isSome_iff_exists.mp hentry
  obtain ⟨hmem, hname⟩ := Directory.findFile_some hfile
  simp only [VirtualFilesystem.getFile, hparse, hroot, ok_bind, getLoop.eq_def, hderef, hfile]
  by_cases htype : file.type = FILE_TYPE_DIRECTORY
  · obtain ⟨k, -, hcast, -⟩ := h.toDirectory hd hmem htype
    exact ⟨_, ['/', '/'], by simp [htype, hcast, hname, ok_bind]; rfl, rfl⟩
  · exact ⟨_, ['/'], by simp [htype, hname]; rfl, rfl⟩

/-- Behind a slash `createFile` adds an entry of the root that is named so, if there is none. -/
theorem createFile_slash (hnone : fs.tree.kind [] ['/'] = none) :
    ∃ fs', fs.createFile FILE_TYPE_FILE ('/' :: p) = .ok (fs', true) ∧
      fs'.tree.kind [] ['/'] = some FILE_TYPE_FILE := by
  have hlast : fs.LastMissing [['/']] [] ['/'] :=
    ⟨[], rfl, by decide, by decide, rfl, hnone⟩
  have hnew := (fs.created_eq_some_iff FILE_TYPE_FILE [['/']] _).mpr
    (.inr ⟨rfl, [], ['/'], hlast, rfl⟩)
  obtain ⟨fs', created, hrun, -, -, hcreated⟩ :=
    createFile_created h hmp FILE_TYPE_FILE ('/' :: p)
  rw [hp.parse_slash, hnew] at hcreated
  obtain ⟨-, hfalse, -⟩ | ⟨rfl, htree⟩ := hcreated
  · cases hfalse
  refine ⟨fs', hrun, ?_⟩
  rw [← Option.some.inj htree]
  exact Tree.kind_append_self (h.tree_proper hmp).root hnone

/-- A path that is made of components creates no such entry. -/
theorem createFile_kind (fileType : Int) :
    ∃ fs' created, fs.createFile fileType p = .ok (fs', created) ∧
      fs'.tree.kind [] ['/'] = fs.tree.kind [] ['/'] := by
  obtain ⟨d, hd, -⟩ := h.roots _ mp hmp
  obtain ⟨fs', created, hrun, -, hmount, hspares⟩ := createFile_ok h hmp fileType p
  obtain ⟨d', hd', hkept⟩ := hspares mp.root d hd
  have hmp' : fs'.mountpoints ['u', 'x', '0'] = some mp := hmount ▸ hmp
  have habsent : ['/'] ∉ (parse p).1 := by
    rw [hp.parse]
    intro hmem
    exact absurd ((hp.isComponent _ hmem).ident '/' (List.mem_cons_self ..)) (by decide)
  refine ⟨fs', created, hrun, ?_⟩
  rw [VirtualFilesystem.tree_kind_root hmp' hd', VirtualFilesystem.tree_kind_root hmp hd,
    hkept _ habsent]

/-- With a slash in front some call does something else. -/
theorem not_sameCalls_slash : ¬ fs.SameCalls p ('/' :: p) := by
  rintro ⟨hget, hcreate⟩
  cases hkind : fs.tree.kind [] ['/'] with
  | some kind =>
    obtain ⟨s, hs, hhead⟩ := getFile_head h hmp hp
    obtain ⟨fs', s', hs', hhead'⟩ := getFile_slash h hmp hp (by rw [hkind]; rfl)
    rw [hs, hs'] at hget
    have heq : s' = s := by simpa [Except.map] using hget
    exact hhead (heq ▸ hhead')
  | none =>
    obtain ⟨fs', created, hrun, hsame⟩ := createFile_kind h hmp hp FILE_TYPE_FILE
    obtain ⟨fs'', hrun', hnew⟩ := createFile_slash h hmp hp hkind
    have htree := hcreate FILE_TYPE_FILE
    rw [hrun, hrun'] at htree
    obtain ⟨heq, -⟩ : fs''.tree = fs'.tree ∧ true = created := by
      simpa [Except.map] using htree
    rw [heq, hsame, hkind] at hnew
    cases hnew

end Mounted

/-! ## The spellings of the root -/

/-- The path behind a slash, behind the mount point, and behind both. -/
def spellings (p : List Char) : List (List Char) :=
  ['/' :: p, ['u', 'x', '0', ':'] ++ p, ['u', 'x', '0', ':', '/'] ++ p]

/-- Behind the mount point the components are the mount point. -/
theorem sameFor_colon_iff (fs : VirtualFilesystem) {components : List Name} {p : List Char}
    (hp : RelPath components p) (slashes : List Char) :
    fs.SameFor p (['u', 'x', '0', ':'] ++ slashes ++ p) ↔ components = [['u', 'x', '0']] := by
  have hparse : (parse (['u', 'x', '0', ':'] ++ slashes ++ p)).1 = [['u', 'x', '0']] := by
    simpa using parse_colon (c := ['u', 'x', '0']) (.of_all (by decide) (by decide)) (slashes ++ p)
  constructor
  · rintro ⟨hsame, -⟩
    rw [hparse, hp.parse] at hsame
    exact hsame.symm
  · intro hcomponents
    have hsame : (parse (['u', 'x', '0', ':'] ++ slashes ++ p)).1 = (parse p).1 := by
      rw [hparse, hp.parse, hcomponents]
    exact ⟨hsame, sameCalls_of_parse fs hsame⟩

/-- No path is the same in all spellings: with a slash in front it never is, and behind the
mount point only if its one component is the name of the mount point. -/
theorem spellings_differ {fs : VirtualFilesystem} (h : fs.WellFormed) {mp : MountPoint}
    (hmp : fs.mountpoints ['u', 'x', '0'] = some mp) {components : List Name} {p : List Char}
    (hp : RelPath components p) :
    (¬ ∀ p' ∈ spellings p, fs.SameFor p p') ∧
      (parse ('/' :: p)).1 ≠ components ∧ ¬ fs.SameCalls p ('/' :: p) ∧
      (fs.SameFor p (['u', 'x', '0', ':'] ++ p) ↔ components = [['u', 'x', '0']]) ∧
      (fs.SameFor p (['u', 'x', '0', ':', '/'] ++ p) ↔ components = [['u', 'x', '0']]) := by
  have hcalls := not_sameCalls_slash h hmp hp
  refine ⟨fun hall => hcalls (hall _ (List.mem_cons_self ..)).2, ?_, hcalls, ?_, ?_⟩
  · rw [hp.parse_slash]
    rintro rfl
    have hident := (hp.isComponent ['/'] (List.mem_singleton_self _)).ident '/' (by simp)
    exact absurd hident (by decide)
  · simpa using sameFor_colon_iff fs hp []
  · simpa using sameFor_colon_iff fs hp ['/']

theorem spellings_differ_nested :
    (¬ ∀ p' ∈ spellings ['a', '/', 'b'],
        (VirtualFilesystem.mounted []).SameFor ['a', '/', 'b'] p') ∧
      (parse ['/', 'a', '/', 'b']).1 ≠ [['a'], ['b']] ∧
      ¬ (VirtualFilesystem.mounted []).SameCalls ['a', '/', 'b'] ['/', 'a', '/', 'b'] ∧
      ((VirtualFilesystem.mounted []).SameFor ['a', '/', 'b']
        ['u', 'x', '0', ':', 'a', '/', 'b'] ↔ [['a'], ['b']] = [['u', 'x', '0']]) ∧
      ((VirtualFilesystem.mounted []).SameFor ['a', '/', 'b']
        ['u', 'x', '0', ':', '/', 'a', '/', 'b'] ↔ [['a'], ['b']] = [['u', 'x', '0']]) := by
  obtain ⟨h, mp, hmp⟩ := mounted_ok []
  have hp : RelPath [['a'], ['b']] ['a', '/', 'b'] :=
    .cons (.of_all (by decide) (by decide)) 0 (.last (.of_all (by decide) (by decide)) 0)
  exact spellings_differ h hmp hp

/-- Each spelling of `a` creates another file. -/
theorem spellings_create_other :
    (VirtualFilesystem.mounted []).WellFormed ∧
      (∃ mp, (VirtualFilesystem.mounted []).mountpoints ['u', 'x', '0'] = some mp) ∧
      RelPath [['a']] ['a'] ∧
      ((VirtualFilesystem.mounted []).createFile FILE_TYPE_FILE ['a']).map
        (fun r => (r.1.tree [], r.2)) = .ok (some [(['a'], FILE_TYPE_FILE)], true) ∧
      ((VirtualFilesystem.mounted []).createFile FILE_TYPE_FILE ['/', 'a']).map
        (fun r => (r.1.tree [], r.2)) = .ok (some [(['/'], FILE_TYPE_FILE)], true) ∧
      ((VirtualFilesystem.mounted []).createFile FILE_TYPE_FILE ['u', 'x', '0', ':', '/', 'a']).map
        (fun r => (r.1.tree [], r.2)) = .ok (some [(['u', 'x', '0'], FILE_TYPE_FILE)], true) ∧
      ¬ ∀ p' ∈ spellings ['a'], (VirtualFilesystem.mounted []).SameFor ['a'] p' := by
  obtain ⟨h, mp, hmp⟩ := mounted_ok []
  have hp : RelPath [['a']] ['a'] := .last (.of_all (by decide) (by decide)) 0
  refine ⟨h, ⟨mp, hmp⟩, hp, by decide +kernel, by decide +kernel, by decide +kernel, fun hall => ?_⟩
  exact not_sameCalls_slash h hmp hp (hall _ (List.mem_cons_self ..)).2

end Betavita.Vfs
