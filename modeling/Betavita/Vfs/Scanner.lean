import Mathlib.Data.List.Basic
import Mathlib.Data.List.TakeWhile

/-!
# vfs.cpp — the scanner and the path parser

The scanner holds what is left of a path and yields one token at a time: a run of
identifier characters, `/` for a run of slashes, or `:` for a colon with the slashes
behind it. `parse` reads tokens until one is not followed by a slash. A `std::string`
is the list of its characters; the first NUL ends it like its end does.
-/

namespace Betavita.Vfs

/-- A `std::string`. -/
abbrev Name := List Char

/-- `check_identifier`. -/
def checkIdentifier (lookahead : Char) : Bool :=
  lookahead == '_' || lookahead == '.' || lookahead.isDigit || lookahead.isAlpha ||
    lookahead == '$'

/-- `Scanner::scanToken`: the token, and what is left in the scanner. -/
def scanToken : List Char → Name × List Char
  | [] => ([], [])
  | lookahead :: rest =>
    if checkIdentifier lookahead then
      (lookahead :: rest.takeWhile checkIdentifier, rest.dropWhile checkIdentifier)
    else if lookahead = '/' then (['/'], rest.dropWhile (· == '/'))
    else if lookahead = ':' then ([':'], rest.dropWhile (· == '/'))
    else if lookahead ≠ Char.ofNat 0 then
      -- "invalid token": the character is skipped
      scanToken rest
    else ([], lookahead :: rest)

theorem scanToken_length_le (s : List Char) : (scanToken s).2.length ≤ s.length := by
  induction s with
  | nil => simp [scanToken]
  | cons lookahead rest ih =>
    have hident := List.length_dropWhile_le checkIdentifier rest
    have hslash := List.length_dropWhile_le (· == '/') rest
    unfold scanToken
    split_ifs <;> simp only [List.length_cons] <;> omega

/-- A token that is not empty takes characters out of the scanner. -/
theorem scanToken_length_lt {s : List Char} (h : (scanToken s).1 ≠ []) :
    (scanToken s).2.length < s.length := by
  induction s with
  | nil => exact absurd rfl h
  | cons lookahead rest ih =>
    have hident := List.length_dropWhile_le checkIdentifier rest
    have hslash := List.length_dropWhile_le (· == '/') rest
    unfold scanToken at h ⊢
    split_ifs at h ⊢ <;> simp only [List.length_cons] <;>
      first | omega | exact Nat.lt_succ_of_lt (ih h) | exact absurd rfl h

/-- `parse`: the branches, and what is left in the scanner. -/
def parse (scanner : List Char) : List Name × List Char :=
  let i := scanToken scanner
  let j := scanToken i.2
  if i.1 = ['.', '.'] ∨ i.1 = ['.'] then
    if j.1 ≠ ['/'] then ([i.1], j.2)
    else
      let (branches, scanner) := parse j.2
      (i.1 :: branches, scanner)
  else
    let first := if i.1 ≠ [] then [i.1] else []
    if j.1 = ['/'] then
      let (branches, scanner) := parse j.2
      (first ++ branches, scanner)
    else (first, j.2)
termination_by scanner.length
decreasing_by
  all_goals
    rename_i h
    have hslash : (scanToken (scanToken scanner).2).1 = ['/'] := by
      first | exact h | exact not_not.mp h
    have hlt := scanToken_length_lt (hslash ▸ List.cons_ne_nil _ _)
    have hle := scanToken_length_le scanner
    omega

/-! ## Tokens -/

/-- A component of a path: not empty, over the identifier alphabet. -/
structure IsComponent (c : Name) : Prop where
  ne : c ≠ []
  ident : ∀ x ∈ c, checkIdentifier x = true

theorem IsComponent.of_all {c : Name} (hne : c ≠ []) (hall : c.all checkIdentifier = true) :
    IsComponent c :=
  ⟨hne, List.all_eq_true.mp hall⟩

/-- What may stand behind an identifier: no further character of it. -/
def Ends (s : List Char) : Prop := ∀ x rest, s = x :: rest → checkIdentifier x = false

theorem Ends.slash (s : List Char) : Ends ('/' :: s) := by
  rintro x rest h
  cases h
  decide

theorem Ends.slashes_append (n : Nat) (s : List Char) :
    Ends (List.replicate (n + 1) '/' ++ s) :=
  .slash (List.replicate n '/' ++ s)

theorem Ends.slashes : (n : Nat) → Ends (List.replicate n '/')
  | 0 => by simp [Ends]
  | n + 1 => .slash (List.replicate n '/')

theorem scanToken_component {c s : List Char} (hc : IsComponent c) (hs : Ends s) :
    scanToken (c ++ s) = (c, s) := by
  have htake : s.takeWhile checkIdentifier = [] := by
    cases s with
    | nil => rfl
    | cons x rest => exact List.takeWhile_cons_of_neg (by simp [hs x rest rfl])
  have hdrop : s.dropWhile checkIdentifier = s := by
    cases s with
    | nil => rfl
    | cons x rest => exact List.dropWhile_cons_of_neg (by simp [hs x rest rfl])
  cases c with
  | nil => exact absurd rfl hc.ne
  | cons x xs =>
    have hx : checkIdentifier x = true := hc.ident x (List.mem_cons_self ..)
    have hxs : ∀ y ∈ xs, checkIdentifier y = true :=
      fun y hy => hc.ident y (List.mem_cons_of_mem x hy)
    rw [List.cons_append, scanToken, if_pos hx, List.takeWhile_append_of_pos hxs,
      List.dropWhile_append_of_pos hxs, htake, hdrop, List.append_nil]

/-- The slashes in front of anything else are one token. -/
theorem scanToken_slashes {s : List Char} (hs : s.dropWhile (· == '/') = s) (n : Nat) :
    scanToken (List.replicate (n + 1) '/' ++ s) = (['/'], s) := by
  have hall : ∀ x ∈ List.replicate n '/', (x == '/') = true := by simp
  rw [List.replicate_succ, List.cons_append, scanToken, if_neg (by decide), if_pos rfl,
    List.dropWhile_append_of_pos hall, hs]

theorem IsComponent.dropWhile_slash {c : Name} (hc : IsComponent c) (s : List Char) :
    (c ++ s).dropWhile (· == '/') = c ++ s := by
  cases c with
  | nil => exact absurd rfl hc.ne
  | cons x xs =>
    refine List.dropWhile_cons_of_neg ?_
    have hx := hc.ident x (List.mem_cons_self ..)
    rw [beq_iff_eq]
    rintro rfl
    exact absurd hx (by decide)

/-! ## Paths -/

/-- The relative paths: components with one or more slashes in between and any number of
slashes at the end. -/
inductive RelPath : List Name → List Char → Prop
  | nil : RelPath [] []
  | last {c : Name} (hc : IsComponent c) (n : Nat) : RelPath [c] (c ++ List.replicate n '/')
  | cons {c c' : Name} {components : List Name} {p : List Char} (hc : IsComponent c) (n : Nat)
      (h : RelPath (c' :: components) p) :
      RelPath (c :: c' :: components) (c ++ (List.replicate (n + 1) '/' ++ p))

theorem RelPath.isComponent {components : List Name} {p : List Char} (h : RelPath components p) :
    ∀ c ∈ components, IsComponent c := by
  induction h with
  | nil => simp
  | last hc => simpa using hc
  | cons hc _ _ ih => simpa using ⟨hc, by simpa using ih⟩

/-- A path does not begin with a slash. -/
theorem RelPath.dropWhile_slash {components : List Name} {p : List Char}
    (h : RelPath components p) : p.dropWhile (· == '/') = p := by
  cases h with
  | nil => rfl
  | last hc => exact hc.dropWhile_slash _
  | cons hc => exact hc.dropWhile_slash _

/-- What the first token adds to the branches. -/
def firstBranch (token : Name) : List Name := if token ≠ [] then [token] else []

/-- The case of dots does what the other case does. -/
theorem parse_eq (scanner : List Char) :
    parse scanner =
      if (scanToken (scanToken scanner).2).1 = ['/'] then
        (firstBranch (scanToken scanner).1 ++ (parse (scanToken (scanToken scanner).2).2).1,
          (parse (scanToken (scanToken scanner).2).2).2)
      else (firstBranch (scanToken scanner).1, (scanToken (scanToken scanner).2).2) := by
  conv_lhs => rw [parse]
  by_cases hdots : (scanToken scanner).1 = ['.', '.'] ∨ (scanToken scanner).1 = ['.']
  · have hne : (scanToken scanner).1 ≠ [] := by
      rcases hdots with heq | heq <;> simp [heq]
    by_cases hslash : (scanToken (scanToken scanner).2).1 = ['/'] <;>
      simp [hdots, hslash, firstBranch, hne]
  · by_cases hslash : (scanToken (scanToken scanner).2).1 = ['/'] <;>
      simp [hdots, hslash, firstBranch]

theorem parse_nil : parse [] = ([], []) := by
  rw [parse_eq]
  simp [scanToken, firstBranch]

/-- A component is a branch, with or without dots; the walk goes on behind a slash. -/
theorem parse_component {c s : List Char} (hc : IsComponent c) (hs : Ends s) :
    parse (c ++ s) =
      if (scanToken s).1 = ['/'] then
        (c :: (parse (scanToken s).2).1, (parse (scanToken s).2).2)
      else ([c], (scanToken s).2) := by
  rw [parse_eq, scanToken_component hc hs]
  simp [firstBranch, hc.ne]

/-- Parsing a path yields its components, whatever the slashes, and empties the scanner. -/
theorem RelPath.parse {components : List Name} {p : List Char} (h : RelPath components p) :
    parse p = (components, []) := by
  induction h with
  | nil => exact parse_nil
  | @last c hc n =>
    rw [parse_component hc (.slashes n)]
    cases n with
    | zero => simp [scanToken]
    | succ n =>
      have hslash := scanToken_slashes (s := []) rfl n
      rw [List.append_nil] at hslash
      rw [hslash, if_pos rfl, parse_nil]
  | @cons c c' components p hc n hp ih =>
    rw [parse_component hc (.slashes_append n p), scanToken_slashes hp.dropWhile_slash,
      if_pos rfl, ih]

/-- Components with the slashes in front of each, and slashes at the end. -/
def joined (first : Name) (rest : List (Nat × Name)) (atEnd : Nat) : List Char :=
  first ++ rest.flatMap (fun c => List.replicate (c.1 + 1) '/' ++ c.2) ++ List.replicate atEnd '/'

theorem RelPath.joined {first : Name} {rest : List (Nat × Name)} (hfirst : IsComponent first)
    (hrest : ∀ c ∈ rest, IsComponent c.2) (atEnd : Nat) :
    RelPath (first :: rest.map Prod.snd) (joined first rest atEnd) := by
  induction rest generalizing first with
  | nil => simpa [Vfs.joined] using RelPath.last hfirst atEnd
  | cons c rest ih =>
    have htail := ih (hrest c (List.mem_cons_self ..))
      fun c' hc' => hrest c' (List.mem_cons_of_mem c hc')
    simpa [Vfs.joined] using RelPath.cons hfirst c.1 htail

/-- The branches are not empty. -/
theorem parse_ne_nil (scanner : List Char) : ∀ i ∈ (parse scanner).1, i ≠ [] := by
  induction hlen : scanner.length using Nat.strongRecOn generalizing scanner with
  | ind n ih =>
    have hfirst : ∀ i ∈ firstBranch (scanToken scanner).1, i ≠ [] := by
      intro i hi
      unfold firstBranch at hi
      split_ifs at hi with hne
      · rw [List.mem_singleton.mp hi]
        exact hne
      · cases hi
    rw [parse_eq]
    split_ifs with hslash
    · intro i hi
      rcases List.mem_append.mp hi with hi | hi
      · exact hfirst i hi
      · refine ih _ ?_ _ rfl i hi
        have hlt := scanToken_length_lt (hslash ▸ List.cons_ne_nil '/' [])
        have hle := scanToken_length_le scanner
        omega
    · exact hfirst

/-- Joining components with one or more slashes and parsing gives them back. -/
theorem parse_joined (first : Name) (rest : List (Nat × Name)) (atEnd : Nat)
    (hfirst : IsComponent first) (hrest : ∀ c ∈ rest, IsComponent c.2) :
    parse (joined first rest atEnd) = (first :: rest.map Prod.snd, []) :=
  (RelPath.joined hfirst hrest atEnd).parse

/-- `./ux0..//..` -/
theorem parse_joined_dots :
    parse (joined ['.'] [(0, ['u', 'x', '0', '.', '.']), (1, ['.', '.'])] 0) =
      ([['.'], ['u', 'x', '0', '.', '.'], ['.', '.']], []) :=
  parse_joined ['.'] [(0, ['u', 'x', '0', '.', '.']), (1, ['.', '.'])] 0
    (.of_all (by decide) (by decide))
    (by
      intro c hc
      rcases List.mem_cons.mp hc with rfl | hc
      · exact .of_all (by decide) (by decide)
      · rw [List.mem_singleton.mp hc]
        exact .of_all (by decide) (by decide))

/-! ## Other spellings -/

/-- A slash in front becomes the one branch. -/
theorem RelPath.parse_slash {components : List Name} {p : List Char} (h : RelPath components p) :
    (Vfs.parse ('/' :: p)).1 = [['/']] := by
  have hslash := scanToken_slashes h.dropWhile_slash 0
  rw [List.replicate_one, List.singleton_append] at hslash
  have hnext : (scanToken p).1 ≠ ['/'] := by
    cases h with
    | nil => decide
    | last hc n =>
      rw [scanToken_component hc (.slashes n)]
      rintro rfl
      exact absurd (hc.ident '/' (by simp)) (by decide)
    | cons hc n _ =>
      rw [scanToken_component hc (.slashes_append n _)]
      rintro rfl
      exact absurd (hc.ident '/' (by simp)) (by decide)
  rw [parse_eq, hslash]
  simp [hnext, firstBranch]

/-- Behind a component a colon ends the walk. -/
theorem parse_colon {c : Name} (hc : IsComponent c) (s : List Char) :
    (parse (c ++ ':' :: s)).1 = [c] := by
  have hends : Ends (':' :: s) := by
    rintro x rest h
    cases h
    decide
  have hcolon : (scanToken (':' :: s)).1 = [':'] := by
    rw [scanToken, if_neg (by decide), if_neg (by decide), if_pos rfl]
  rw [parse_component hc hends, if_neg (by simp [hcolon])]

end Betavita.Vfs
