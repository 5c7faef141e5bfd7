import Mathlib.Data.List.Basic
import Mathlib.Data.List.Induction

/-!
# Trees of directories and walks through them

A tree says, for the path of each of its directories, which entries that directory has and
of what kind they are. A walk resolves components one at a time from the root; a name or a
step up is only looked up from a directory.
-/

namespace PathWalk

variable {ν κ : Type*}

inductive Component (ν : Type*)
  | stay
  | up
  | name (n : ν)
deriving DecidableEq

/-- Where a walk is: in a directory, or at a file of it that is no directory. -/
structure Position (ν : Type*) where
  dir : List ν
  file : Option ν
deriving DecidableEq

def Position.root : Position ν := ⟨[], none⟩

/-- The path of the entry. -/
def Position.path (p : Position ν) : List ν := p.dir ++ p.file.toList

/-- Where an entry of a directory is, given whether it is one itself. -/
def Position.entry (dir : List ν) (n : ν) (isDirectory : Bool) : Position ν :=
  if isDirectory then ⟨dir ++ [n], none⟩ else ⟨dir, some n⟩

theorem Position.entry_path (dir : List ν) (n : ν) (isDirectory : Bool) :
    (Position.entry dir n isDirectory).path = dir ++ [n] := by
  cases isDirectory <;> simp [Position.entry, Position.path]

theorem not_concat_isPrefix (dir : List ν) (n : ν) : ¬ dir ++ [n] <+: dir := by
  intro h
  have hle := h.length_le
  rw [List.length_append, List.length_singleton] at hle
  omega

variable [DecidableEq ν]

/-- The entries of the directories, by their paths from the root. -/
abbrev Tree (ν κ : Type*) := List ν → Option (List (ν × κ))

/-- The kind of an entry of a directory. -/
def Tree.kind (T : Tree ν κ) (dir : List ν) (n : ν) : Option κ :=
  (T dir).bind fun entries => (entries.find? fun e => decide (e.1 = n)).map Prod.snd

/-- The tree without the entry at a path, and without what is below it. -/
def Tree.remove (T : Tree ν κ) (path : List ν) : Tree ν κ := fun q =>
  if path <+: q then none
  else if q = path.dropLast then
    (T q).map fun entries => entries.filter fun e => decide (path.getLast? ≠ some e.1)
  else T q

/-! ## Walks -/

variable (isDirectory : κ → Bool) (T : Tree ν κ)

/-- One component. -/
def step (p : Position ν) : Component ν → Option (Position ν)
  | .stay => some p
  | .up => if p.file.isSome then none else some ⟨p.dir.dropLast, none⟩
  | .name n =>
    if p.file.isSome then none
    else (T.kind p.dir n).map fun k => .entry p.dir n (isDirectory k)

/-- The entry that a path leads to from the root. -/
def resolve (components : List (Component ν)) : Option (Position ν) :=
  components.foldlM (step isDirectory T) .root

variable {isDirectory : κ → Bool} {T : Tree ν κ}

/-- A walk that ends in a name ends at an entry of that name. -/
theorem resolve_name {components : List (Component ν)} {n : ν} {p : Position ν}
    (h : resolve isDirectory T (components ++ [.name n]) = some p) :
    ∃ dir, p.path = dir ++ [n] ∧ (T.kind dir n).isSome := by
  rw [resolve, List.foldlM_append] at h
  obtain ⟨p₀, -, hlast⟩ := Option.bind_eq_some_iff.mp h
  have hstep : step isDirectory T p₀ (.name n) = some p := by simpa using hlast
  unfold step at hstep
  split_ifs at hstep
  obtain ⟨k, hk, rfl⟩ := Option.map_eq_some_iff.mp hstep
  exact ⟨p₀.dir, Position.entry_path .., by rw [hk]; rfl⟩

/-! ## Removal -/

theorem Tree.remove_parent (T : Tree ν κ) (dir : List ν) (n : ν) :
    T.remove (dir ++ [n]) dir =
      (T dir).map fun entries => entries.filter fun e => decide (e.1 ≠ n) := by
  rw [Tree.remove, if_neg (not_concat_isPrefix dir n), List.dropLast_concat, if_pos rfl]
  simp [eq_comm]

/-- The entry is gone. -/
theorem Tree.kind_remove_self (T : Tree ν κ) (dir : List ν) (n : ν) :
    (T.remove (dir ++ [n])).kind dir n = none := by
  rw [Tree.kind, Tree.remove_parent]
  cases T dir with
  | none => rfl
  | some entries => simp [List.find?_filter]

/-- Entries that are not below it stay. -/
theorem Tree.kind_remove_other (T : Tree ν κ) {dir dir' : List ν} {n n' : ν}
    (hbelow : ¬ dir' ++ [n'] <+: dir) (hne : dir ++ [n] ≠ dir' ++ [n']) :
    (T.remove (dir' ++ [n'])).kind dir n = T.kind dir n := by
  by_cases hdir : dir = dir'
  · subst hdir
    have hn : n ≠ n' := by
      rintro rfl
      exact hne rfl
    rw [Tree.kind, Tree.remove_parent, Tree.kind]
    cases T dir with
    | none => rfl
    | some entries =>
      have hfind : ∀ e : ν × κ, (decide (e.1 ≠ n') = true ∧ decide (e.1 = n) = true) ↔ e.1 = n := by
        intro e
        rw [decide_eq_true_iff, decide_eq_true_iff, and_iff_right_iff_imp]
        rintro rfl
        exact hn
      simp only [Option.map_some, Option.bind_some, List.find?_filter, hfind]
  · rw [Tree.kind, Tree.remove, if_neg hbelow, List.dropLast_concat, if_neg hdir, Tree.kind]

/-- What was removed can be told from the tree that is left. -/
theorem Tree.remove_injective {T : Tree ν κ} {dir dir' : List ν} {n n' : ν}
    (hentry : (T.kind dir n).isSome)
    (h : T.remove (dir ++ [n]) = T.remove (dir' ++ [n'])) : dir ++ [n] = dir' ++ [n'] := by
  by_contra hne
  have hself := T.kind_remove_self dir n
  have hbelow : ¬ dir' ++ [n'] <+: dir := by
    intro hprefix
    have hgone : T.remove (dir' ++ [n']) dir = none := by
      rw [Tree.remove, if_pos hprefix]
    rw [← h, Tree.remove_parent, Option.map_eq_none_iff] at hgone
    rw [Tree.kind, hgone] at hentry
    cases hentry
  rw [h, T.kind_remove_other hbelow hne] at hself
  rw [hself] at hentry
  cases hentry

/-! ## Trees whose directories are there -/

variable (isDirectory) in
/-- The directories of the tree are the root and the entries that are directories. -/
structure Tree.Proper (T : Tree ν κ) : Prop where
  root : (T []).isSome
  below : ∀ dir n, (T (dir ++ [n])).isSome ↔ ∃ k, T.kind dir n = some k ∧ isDirectory k = true

theorem Tree.isSome_of_kind {dir : List ν} {n : ν} {k : κ} (h : T.kind dir n = some k) :
    (T dir).isSome := by
  obtain ⟨entries, hentries, -⟩ := Option.bind_eq_some_iff.mp h
  rw [hentries, Option.isSome_some]

namespace Tree.Proper

variable (h : T.Proper isDirectory)
include h

theorem dropLast {dir : List ν} (hdir : (T dir).isSome) : (T dir.dropLast).isSome := by
  induction dir using List.reverseRecOn with
  | nil => exact hdir
  | append_singleton dir n _ =>
    obtain ⟨k, hk, -⟩ := (h.below dir n).mp hdir
    rw [List.dropLast_concat]
    exact Tree.isSome_of_kind hk

theorem missing {dir : List ν} {n : ν} (hn : T.kind dir n = none) : T (dir ++ [n]) = none := by
  rw [← Option.not_isSome_iff_eq_none, h.below]
  rintro ⟨k, hk, -⟩
  rw [hn] at hk
  cases hk

/-- A step leads from a directory that is there to one that is. -/
theorem step {p p' : Position ν} (hp : (T p.dir).isSome) {c : Component ν}
    (hstep : step isDirectory T p c = some p') : (T p'.dir).isSome := by
  cases c with
  | stay =>
    cases hstep
    exact hp
  | up =>
    simp only [PathWalk.step] at hstep
    split_ifs at hstep
    cases hstep
    exact h.dropLast hp
  | name n =>
    simp only [PathWalk.step] at hstep
    split_ifs at hstep
    obtain ⟨k, hk, rfl⟩ := Option.map_eq_some_iff.mp hstep
    cases hdir : isDirectory k with
    | false => exact hp
    | true => exact (h.below p.dir n).mpr ⟨k, hk, hdir⟩

theorem walk {p p' : Position ν} (hp : (T p.dir).isSome) {components : List (Component ν)}
    (hwalk : components.foldlM (PathWalk.step isDirectory T) p = some p') : (T p'.dir).isSome := by
  induction components generalizing p with
  | nil =>
    cases hwalk
    exact hp
  | cons c components ih =>
    rw [List.foldlM_cons] at hwalk
    obtain ⟨p₁, hstep, hwalk⟩ := Option.bind_eq_some_iff.mp hwalk
    exact ih (h.step hp hstep) hwalk

theorem resolve {components : List (Component ν)} {p : Position ν}
    (hresolve : resolve isDirectory T components = some p) : (T p.dir).isSome :=
  h.walk h.root hresolve

end Tree.Proper

/-! ## Creation -/

variable (isDirectory) in
/-- The tree with one more entry at the end of a directory, with nothing in it if it is a
directory itself. -/
def Tree.append (T : Tree ν κ) (dir : List ν) (n : ν) (k : κ) : Tree ν κ := fun q =>
  if q = dir then (T q).map fun entries => entries ++ [(n, k)]
  else if q = dir ++ [n] then if isDirectory k then some [] else none
  else T q

section Create

variable (isDirectory) (creatable : κ → Bool) (T) (k : κ)

/-- Creating an entry of kind `k` from a directory: a path that leads to a directory creates
nothing, and one whose last name is missing creates it. -/
def createFrom : List ν → List (Component ν) → Option (Tree ν κ)
  | _, [] => some T
  | dir, c :: components =>
    match step isDirectory T ⟨dir, none⟩ c, c with
    | some p, _ => if p.file.isSome then none else createFrom p.dir components
    | none, .name n =>
      if components.isEmpty && creatable k then some (T.append isDirectory dir n k) else none
    | none, _ => none

def create (components : List (Component ν)) : Option (Tree ν κ) :=
  createFrom isDirectory T creatable k [] components

/-- Of a path from `start` only the last name is missing, in the directory `dir`. -/
def MissingFrom (start : List ν) (components : List (Component ν)) (dir : List ν) (n : ν) :
    Prop :=
  ∃ init, components = init ++ [.name n] ∧
    init.foldlM (step isDirectory T) ⟨start, none⟩ = some ⟨dir, none⟩ ∧ T.kind dir n = none

def Missing (components : List (Component ν)) (dir : List ν) (n : ν) : Prop :=
  MissingFrom isDirectory T [] components dir n

end Create

/-- A walk that has come to a file stays there. -/
theorem foldlM_step_file {dir : List ν} {n : ν} {components : List (Component ν)}
    {p : Position ν} (h : components.foldlM (step isDirectory T) ⟨dir, some n⟩ = some p) :
    p = ⟨dir, some n⟩ := by
  induction components with
  | nil =>
    cases h
    rfl
  | cons c components ih =>
    rw [List.foldlM_cons] at h
    cases c with
    | stay => exact ih h
    | up => cases h
    | name m => cases h

/-- A step from a directory fails only at a name that is missing. -/
theorem step_eq_none {dir : List ν} {c : Component ν}
    (h : step isDirectory T ⟨dir, none⟩ c = none) : ∃ n, c = .name n ∧ T.kind dir n = none := by
  cases c with
  | stay => cases h
  | up => cases h
  | name n => exact ⟨n, rfl, by simpa [step] using h⟩

section Missing

variable {start dir : List ν} {n : ν} {c : Component ν} {components : List (Component ν)}

theorem not_missingFrom_nil : ¬ MissingFrom isDirectory T start [] dir n := by
  rintro ⟨init, h, -⟩
  cases init <;> cases h

/-- A missing name can only be the last one. -/
theorem missingFrom_cons_none {m : ν} (hm : T.kind start m = none) :
    MissingFrom isDirectory T start (.name m :: components) dir n ↔
      components = [] ∧ dir = start ∧ n = m := by
  constructor
  · rintro ⟨init, hinit, hwalk, -⟩
    cases init with
    | nil =>
      cases hinit
      cases hwalk
      exact ⟨rfl, rfl, rfl⟩
    | cons c init =>
      cases hinit
      simp [step, hm] at hwalk
  · rintro ⟨rfl, rfl, rfl⟩
    exact ⟨[], rfl, rfl, hm⟩

/-- Behind a step it is missing from where the step leads. -/
theorem missingFrom_cons_some {p : Position ν}
    (hstep : step isDirectory T ⟨start, none⟩ c = some p) :
    MissingFrom isDirectory T start (c :: components) dir n ↔
      p.file = none ∧ MissingFrom isDirectory T p.dir components dir n := by
  obtain ⟨dir₁, file⟩ := p
  constructor
  · rintro ⟨init, hinit, hwalk, hn⟩
    cases init with
    | nil =>
      cases hinit
      cases hwalk
      simp [step, hn] at hstep
    | cons c' init =>
      cases hinit
      rw [List.foldlM_cons, hstep] at hwalk
      cases file with
      | none => exact ⟨rfl, init, rfl, hwalk, hn⟩
      | some m => cases foldlM_step_file hwalk
  · rintro ⟨rfl, init, rfl, hwalk, hn⟩
    refine ⟨c :: init, rfl, ?_, hn⟩
    rw [List.foldlM_cons, hstep]
    exact hwalk

end Missing

section Create

variable {creatable : κ → Bool} {k : κ} {start : List ν} {c : Component ν}
  {components : List (Component ν)}

theorem createFrom_cons_some {p : Position ν}
    (hstep : step isDirectory T ⟨start, none⟩ c = some p) :
    createFrom isDirectory T creatable k start (c :: components) =
      if p.file.isSome then none
      else createFrom isDirectory T creatable k p.dir components := by
  simp only [createFrom, hstep]

theorem createFrom_cons_none {n : ν} (hn : T.kind start n = none) :
    createFrom isDirectory T creatable k start (.name n :: components) =
      if components.isEmpty && creatable k then some (T.append isDirectory start n k)
      else none := by
  have hstep : step isDirectory T ⟨start, none⟩ (.name n) = none := by simp [step, hn]
  simp only [createFrom, hstep]

/-- What is created from a directory: nothing if the path leads to a directory, or else the
one entry that is missing. -/
theorem createFrom_eq_some_iff {T' : Tree ν κ} :
    createFrom isDirectory T creatable k start components = some T' ↔
      (T = T' ∧ ∃ dir, components.foldlM (step isDirectory T) ⟨start, none⟩ = some ⟨dir, none⟩) ∨
      (creatable k = true ∧ ∃ dir n, MissingFrom isDirectory T start components dir n ∧
        T.append isDirectory dir n k = T') := by
  induction components generalizing start with
  | nil =>
    have hnil : createFrom isDirectory T creatable k start [] = some T := rfl
    simp [hnil, not_missingFrom_nil]
  | cons c components ih =>
    rw [List.foldlM_cons]
    cases hstep : step isDirectory T ⟨start, none⟩ c with
    | none =>
      obtain ⟨m, rfl, hm⟩ := step_eq_none hstep
      rw [createFrom_cons_none hm]
      simp only [missingFrom_cons_none hm]
      cases components <;> simp
    | some p =>
      obtain ⟨dir₁, file⟩ := p
      rw [createFrom_cons_some hstep]
      simp only [missingFrom_cons_some hstep]
      cases file with
      | none => simpa using ih
      | some m =>
        have hfile : ∀ dir, components.foldlM (step isDirectory T) ⟨dir₁, some m⟩ ≠
            some ⟨dir, none⟩ := by
          intro dir hwalk
          cases foldlM_step_file hwalk
        simp [hfile]

theorem create_eq_some_iff {T' : Tree ν κ} :
    create isDirectory T creatable k components = some T' ↔
      (T = T' ∧ ∃ dir, resolve isDirectory T components = some ⟨dir, none⟩) ∨
      (creatable k = true ∧ ∃ dir n, Missing isDirectory T components dir n ∧
        T.append isDirectory dir n k = T') :=
  createFrom_eq_some_iff

end Create

/-! ## The tree with the new entry -/

variable (isDirectory T) in
/-- The path leads to an entry of kind `k`: not to the root, which is none. -/
def LeadsTo (components : List (Component ν)) (k : κ) : Prop :=
  ∃ p dir n, resolve isDirectory T components = some p ∧ p.path = dir ++ [n] ∧
    T.kind dir n = some k

/-- A directory that a path leads to is the root or an entry that is a directory. -/
theorem exists_leadsTo_iff (hT : T.Proper isDirectory)
    {components : List (Component ν)} {dir : List ν}
    (h : resolve isDirectory T components = some ⟨dir, none⟩) :
    (∃ k, LeadsTo isDirectory T components k) ↔ dir ≠ [] := by
  constructor
  · rintro ⟨k, p, dir', n, hp, hpath, -⟩ rfl
    rw [h] at hp
    cases hp
    simp [Position.path] at hpath
  · intro hne
    obtain ⟨dir', n, rfl⟩ := (List.eq_nil_or_concat' dir).resolve_left hne
    obtain ⟨k, hk, -⟩ := (hT.below dir' n).mp (hT.resolve h)
    exact ⟨k, ⟨dir' ++ [n], none⟩, dir', n, h, by simp [Position.path], hk⟩

theorem LeadsTo.directory (hT : T.Proper isDirectory) {components : List (Component ν)}
    {k : κ} (h : LeadsTo isDirectory T components k) {dir : List ν}
    (hdir : resolve isDirectory T components = some ⟨dir, none⟩) : isDirectory k = true := by
  obtain ⟨p, dir', n, hp, hpath, hk⟩ := h
  rw [hdir] at hp
  cases hp
  have hthere := hT.resolve hdir
  obtain rfl : dir = dir' ++ [n] := by simpa [Position.path] using hpath
  obtain ⟨k', hk', hdirectory⟩ := (hT.below dir' n).mp hthere
  rw [hk] at hk'
  cases hk'
  exact hdirectory

section Append

variable {dir dir' : List ν} {n n' : ν} {k k' : κ}

theorem Tree.kind_append_self (hdir : (T dir).isSome) (hn : T.kind dir n = none) :
    (T.append isDirectory dir n k).kind dir n = some k := by
  obtain ⟨entries, hentries⟩ := Option.isSome_iff_exists.mp hdir
  rw [Tree.kind, hentries, Option.bind_some, Option.map_eq_none_iff] at hn
  rw [Tree.kind, Tree.append, if_pos rfl, hentries]
  simp [List.find?_append, hn]

/-- The entries that there were stay. -/
theorem Tree.kind_append_of_some (hnone : T (dir ++ [n]) = none)
    (h : T.kind dir' n' = some k') :
    (T.append isDirectory dir n k).kind dir' n' = some k' := by
  obtain ⟨entries, hentries, hfind⟩ := Option.bind_eq_some_iff.mp h
  rw [Tree.kind, Tree.append]
  split_ifs with hdir hnew
  · obtain ⟨e, he, rfl⟩ := Option.map_eq_some_iff.mp hfind
    simp [hentries, List.find?_append, he]
  · rw [hnew, hnone] at hentries
    cases hentries
  · rw [hnew, hnone] at hentries
    cases hentries
  · rw [hentries, Option.bind_some, hfind]

/-- So do the walks. -/
theorem walk_append (hnone : T (dir ++ [n]) = none) {p p' : Position ν}
    {components : List (Component ν)}
    (h : components.foldlM (step isDirectory T) p = some p') :
    components.foldlM (step isDirectory (T.append isDirectory dir n k)) p = some p' := by
  induction components generalizing p with
  | nil => exact h
  | cons c components ih =>
    rw [List.foldlM_cons] at h ⊢
    obtain ⟨p₁, hstep, h⟩ := Option.bind_eq_some_iff.mp h
    have hstep' : step isDirectory (T.append isDirectory dir n k) p c = some p₁ := by
      cases c with
      | stay => exact hstep
      | up => exact hstep
      | name m =>
        simp only [step] at hstep ⊢
        split_ifs at hstep ⊢
        obtain ⟨k₁, hk₁, rfl⟩ := Option.map_eq_some_iff.mp hstep
        rw [Tree.kind_append_of_some hnone hk₁, Option.map_some]
    rw [hstep']
    exact ih h

/-- A path to what was missing leads to the new entry. -/
theorem Missing.leadsTo (hT : T.Proper isDirectory) {components : List (Component ν)}
    (h : Missing isDirectory T components dir n) :
    LeadsTo isDirectory (T.append isDirectory dir n k) components k := by
  obtain ⟨init, rfl, hwalk, hn⟩ := h
  have hdir : (T dir).isSome := hT.resolve hwalk
  have hkind : (T.append isDirectory dir n k).kind dir n = some k := Tree.kind_append_self hdir hn
  refine ⟨.entry dir n (isDirectory k), dir, n, ?_, Position.entry_path .., hkind⟩
  rw [PathWalk.resolve, List.foldlM_append, Position.root, walk_append (hT.missing hn) hwalk]
  simp [step, hkind]

end Append

end PathWalk
