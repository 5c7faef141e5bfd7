import Betavita.Lib.DoWhile
import Betavita.Lib.Results
import Betavita.Vfs.Scanner

/-!
# vfs.cpp — the loops of the scanner

`scanToken` walks over the characters of `string.c_str()` with one index and one lookahead:
an outer loop tries again behind each character that begins no token, and three inner loops
run over the rest of the token. A read behind the terminator is a fault, as is a `substr`
from behind the end. Fuel bounds the turns of each loop and the calls of `parse`.
-/

namespace Betavita.Vfs

open DoWhile Results

/-- How the scanner can go wrong. The last one is not of the source: a loop, or a recursion,
that has not ended. -/
inductive ScanFault
  | pastTerminator
  | outOfRange
  | outOfFuel
deriving DecidableEq, Repr

/-- The locals of `scanToken` that its loops share. The index does not leave the string: it
stops at the terminator at the latest (`OuterInv`, `ScanEnd`). -/
structure ScanState where
  length : Nat
  lookahead : Char
  token : Name
deriving DecidableEq, Repr

/-- `data[length]`, for the `data` of `string.c_str()`. -/
def charAt (string : List Char) (length : Nat) : Except ScanFault Char :=
  match (string ++ [Char.ofNat 0])[length]? with
  | none => .error .pastTerminator
  | some lookahead => .ok lookahead

/-- `string.substr(length)`. -/
def substr (string : List Char) (length : Nat) : Except ScanFault (List Char) :=
  if length ≤ string.length then .ok (string.drop length) else .error .outOfRange

/-- A turn of an inner loop: `store` is what it does to the token, `goesOn` the condition on
the next character. -/
def innerTurn (string : List Char) (store : Name → Char → Name) (goesOn : Char → Bool) :
    Body ScanFault ScanState := fun s => do
  let token := store s.token s.lookahead
  let length := s.length + 1
  let lookahead ← charAt string length
  return (⟨length, lookahead, token⟩, goesOn lookahead)

/-- `do { token += lookahead; length++; } while (lookahead = data[length],
check_identifier(lookahead))`. -/
def identifierTurn (string : List Char) : Body ScanFault ScanState :=
  innerTurn string (fun token lookahead => token ++ [lookahead]) checkIdentifier

/-- `do { length++; } while (lookahead = data[length], lookahead == '/')`, behind a slash and
behind a colon. -/
def slashTurn (string : List Char) : Body ScanFault ScanState :=
  innerTurn string (fun token _ => token) (· == '/')

/-- A turn of the outer loop. Its `break` is a condition that does not hold. -/
def tokenTurn (string : List Char) (fuel : Nat) : Body ScanFault ScanState := fun s => do
  let lookahead ← charAt string s.length
  let s := { s with lookahead := lookahead }
  if checkIdentifier lookahead then
    let s ← doWhile (identifierTurn string) .outOfFuel fuel s
    return (s, false)
  else if lookahead = '/' then
    let s ← doWhile (slashTurn string) .outOfFuel fuel { s with token := ['/'] }
    return (s, false)
  else if lookahead = ':' then
    let s ← doWhile (slashTurn string) .outOfFuel fuel { s with token := [':'] }
    return (s, false)
  else
    -- "invalid token"
    let s := if lookahead ≠ Char.ofNat 0 then { s with length := s.length + 1 } else s
    return (s, lookahead != Char.ofNat 0)

/-- `Scanner::scanToken`, loop by loop: the token, and what is left in the scanner. -/
def Scanner.scanToken (fuel : Nat) (string : List Char) :
    Except ScanFault (Name × List Char) :=
  if string.length = 0 then .ok ([], string)
  else do
    -- `lookahead` has no value yet, and gets one before it is used
    let s ← doWhile (tokenTurn string fuel) .outOfFuel fuel ⟨0, Char.ofNat 0, []⟩
    let string ← substr string s.length
    return (s.token, string)

/-- `parse`, call by call: the branches so far, and what is left in the scanner. -/
def Scanner.parse : Nat → List Name → List Char → Except ScanFault (List Name × List Char)
  | 0, _, _ => .error .outOfFuel
  | fuel + 1, branches, string => do
    let (i, string) ← Scanner.scanToken (fuel + 1) string
    if i = ['.', '.'] ∨ i = ['.'] then
      let branches := branches ++ [i]
      let (j, string) ← Scanner.scanToken (fuel + 1) string
      if j ≠ ['/'] then return (branches, string)
      Scanner.parse fuel branches string
    else
      let branches := if i ≠ [] then branches ++ [i] else branches
      let (j, string) ← Scanner.scanToken (fuel + 1) string
      if j = ['/'] then Scanner.parse fuel branches string
      else return (branches, string)

/-! ## Characters -/

/-- A character that a token begins with. -/
def beginsToken (c : Char) : Bool := checkIdentifier c || c == '/' || c == ':'

theorem beginsToken_eq_false_iff {c : Char} :
    beginsToken c = false ↔ ¬ checkIdentifier c = true ∧ c ≠ '/' ∧ c ≠ ':' := by
  simp [beginsToken, and_assoc]

/-- A character that begins no token is passed over. -/
theorem scanToken_pass {c : Char} (h : beginsToken c = false) (hnul : c ≠ Char.ofNat 0)
    (rest : List Char) : scanToken (c :: rest) = scanToken rest := by
  obtain ⟨hident, hslash, hcolon⟩ := beginsToken_eq_false_iff.mp h
  rw [scanToken, if_neg hident, if_neg hslash, if_neg hcolon, if_pos hnul]

theorem scanToken_nul (rest : List Char) :
    scanToken (Char.ofNat 0 :: rest) = ([], Char.ofNat 0 :: rest) := by
  rw [scanToken, if_neg (by decide), if_neg (by decide), if_neg (by decide), if_neg (by decide)]

/-! ## Reads -/

section Loops

variable {string : List Char} {k fuel : Nat}

/-- A character of the string is read at its index. -/
theorem charAt_cons {c : Char} {rest : List Char} (h : string.drop k = c :: rest) :
    charAt string k = .ok c := by
  have hget : string[k]? = some c := by
    rw [← List.head?_drop, h, List.head?_cons]
  have hlt : k < string.length := (List.getElem?_eq_some_iff.mp hget).1
  rw [charAt, List.getElem?_append_left hlt, hget]

/-- The terminator is read at the end. -/
theorem charAt_end (string : List Char) : charAt string string.length = .ok (Char.ofNat 0) := by
  rw [charAt, List.getElem?_append_right (Nat.le_refl _), Nat.sub_self]
  rfl

theorem eq_length_of_drop (hk : k ≤ string.length) (h : string.drop k = []) :
    k = string.length :=
  Nat.le_antisymm hk (List.drop_eq_nil_iff.mp h)

theorem lt_length_of_drop {c : Char} {rest : List Char} (h : string.drop k = c :: rest) :
    k < string.length := by
  by_contra hge
  rw [List.drop_eq_nil_iff.mpr (Nat.le_of_not_lt hge)] at h
  cases h

theorem drop_succ_of_cons {c : Char} {rest : List Char} (h : string.drop k = c :: rest) :
    string.drop (k + 1) = rest := by
  rw [← List.tail_drop, h, List.tail_cons]

/-! ## Inner loops -/

/-- In an inner loop the index is at the lookahead; the token that the loop will end with, and
what it will leave, stay the same from turn to turn. -/
structure InnerInv (string : List Char) (store : Name → Char → Name) (goesOn : Char → Bool)
    (token : Name) (rest : List Char) (s : ScanState) : Prop where
  ahead : string.drop s.length = s.lookahead :: string.drop (s.length + 1)
  stored : ((string.drop (s.length + 1)).takeWhile goesOn).foldl store
    (store s.token s.lookahead) = token
  left : (string.drop (s.length + 1)).dropWhile goesOn = rest

/-- A loop over a token ends with the token, at what is left. -/
structure ScanEnd (string : List Char) (token : Name) (rest : List Char) (s : ScanState) :
    Prop where
  inside : s.length ≤ string.length
  token : s.token = token
  rest : string.drop s.length = rest

theorem innerTurn_progress {store : Name → Char → Name} {goesOn : Char → Bool}
    (hend : goesOn (Char.ofNat 0) = false) {token : Name} {rest : List Char} {s : ScanState}
    (h : InnerInv string store goesOn token rest s) :
    Progress (innerTurn string store goesOn) (InnerInv string store goesOn token rest)
      (ScanEnd string token rest) (fun s => string.length - s.length) s := by
  obtain ⟨hahead, hstored, hleft⟩ := h
  have hlt : s.length + 1 ≤ string.length := lt_length_of_drop hahead
  have hturn {lookahead : Char} (hread : charAt string (s.length + 1) = .ok lookahead) :
      innerTurn string store goesOn s =
        .ok (⟨s.length + 1, lookahead, store s.token s.lookahead⟩, goesOn lookahead) := by
    rw [innerTurn, hread]
    rfl
  cases hnext : string.drop (s.length + 1) with
  | nil =>
    rw [hnext] at hstored hleft
    have hread : charAt string (s.length + 1) = .ok (Char.ofNat 0) := by
      rw [eq_length_of_drop hlt hnext]
      exact charAt_end string
    have hleaves := hturn hread
    rw [hend] at hleaves
    exact .leaves hleaves ⟨hlt, hstored, hnext.trans hleft⟩
  | cons c behind =>
    rw [hnext] at hstored hleft
    have hnow := hturn (charAt_cons hnext)
    cases hc : goesOn c with
    | true =>
      rw [hc] at hnow
      rw [List.takeWhile_cons_of_pos hc, List.foldl_cons] at hstored
      rw [List.dropWhile_cons_of_pos hc] at hleft
      have hbehind := drop_succ_of_cons hnext
      refine .goesOn hnow ⟨?_, ?_, ?_⟩ (Nat.sub_lt_sub_left hlt (Nat.lt_succ_self _))
      · rw [hbehind, hnext]
      · rw [hbehind, hstored]
      · rw [hbehind, hleft]
    | false =>
      have hc' : ¬ goesOn c = true := by simp [hc]
      rw [hc] at hnow
      rw [List.takeWhile_cons_of_neg hc'] at hstored
      rw [List.dropWhile_cons_of_neg hc'] at hleft
      exact .leaves hnow ⟨hlt, hstored, hnext.trans hleft⟩

/-- An inner loop that begins at a character runs over what follows it and passes the test. -/
theorem innerLoop_ok (store : Name → Char → Name) (goesOn : Char → Bool)
    (hend : goesOn (Char.ofNat 0) = false) (hfuel : string.length < fuel) {c : Char}
    {rest : List Char} (h : string.drop k = c :: rest) (token : Name) :
    ∃ s, doWhile (innerTurn string store goesOn) .outOfFuel fuel ⟨k, c, token⟩ = .ok s ∧
      ScanEnd string ((rest.takeWhile goesOn).foldl store (store token c))
        (rest.dropWhile goesOn) s := by
  have hbehind := drop_succ_of_cons h
  refine doWhile_ok (fun s hs => innerTurn_progress hend hs) ⟨?_, ?_, ?_⟩ ?_
  · exact h.trans (by rw [hbehind])
  · rw [hbehind]
  · rw [hbehind]
  · exact Nat.lt_of_le_of_lt (Nat.sub_le _ _) hfuel

theorem identifierLoop_ok (hfuel : string.length < fuel) {c : Char} {rest : List Char}
    (h : string.drop k = c :: rest) :
    ∃ s, doWhile (identifierTurn string) .outOfFuel fuel ⟨k, c, []⟩ = .ok s ∧
      ScanEnd string (c :: rest.takeWhile checkIdentifier) (rest.dropWhile checkIdentifier) s := by
  have hstore : ∀ l : List Char,
      l.foldl (fun (token : Name) lookahead => token ++ [lookahead]) [c] = c :: l := by
    intro l
    rw [List.foldl_append_eq_append, ← List.flatMap_def, List.flatMap_singleton']
    rfl
  have hloop := innerLoop_ok (fun token lookahead => token ++ [lookahead]) checkIdentifier
    (by decide) hfuel h []
  rw [List.nil_append, hstore] at hloop
  exact hloop

theorem slashLoop_ok (hfuel : string.length < fuel) {c : Char} {rest : List Char}
    (h : string.drop k = c :: rest) (token : Name) :
    ∃ s, doWhile (slashTurn string) .outOfFuel fuel ⟨k, c, token⟩ = .ok s ∧
      ScanEnd string token (rest.dropWhile (· == '/')) s := by
  have hloop := innerLoop_ok (fun token _ => token) (· == '/') (by decide) hfuel h token
  rw [List.foldl_fixed] at hloop
  exact hloop

/-! ## The outer loop -/

/-- The outer loop has passed over characters that begin no token: what `scanToken` yields is
that of the rest. -/
structure OuterInv (string : List Char) (s : ScanState) : Prop where
  inside : s.length ≤ string.length
  token : s.token = []
  same : Vfs.scanToken (string.drop s.length) = Vfs.scanToken string

/-- At a character that begins a token the outer loop ends with the token. -/
theorem tokenTurn_begins (hfuel : string.length < fuel) {c : Char} {rest : List Char}
    (h : string.drop k = c :: rest) (hbegins : beginsToken c = true) (lookahead : Char) :
    ∃ s, tokenTurn string fuel ⟨k, lookahead, []⟩ = .ok (s, false) ∧
      ScanEnd string (Vfs.scanToken (c :: rest)).1 (Vfs.scanToken (c :: rest)).2 s := by
  rw [tokenTurn, charAt_cons h, ok_bind, Vfs.scanToken]
  by_cases hident : checkIdentifier c = true
  · obtain ⟨s, hrun, hs⟩ := identifierLoop_ok hfuel h
    rw [if_pos hident, if_pos hident, hrun]
    exact ⟨s, rfl, hs⟩
  rw [if_neg hident, if_neg hident]
  by_cases hslash : c = '/'
  · obtain ⟨s, hrun, hs⟩ := slashLoop_ok hfuel h ['/']
    rw [if_pos hslash, if_pos hslash, hrun]
    exact ⟨s, rfl, hs⟩
  rw [if_neg hslash, if_neg hslash]
  by_cases hcolon : c = ':'
  · obtain ⟨s, hrun, hs⟩ := slashLoop_ok hfuel h [':']
    rw [if_pos hcolon, if_pos hcolon, hrun]
    exact ⟨s, rfl, hs⟩
  · rw [beginsToken_eq_false_iff.mpr ⟨hident, hslash, hcolon⟩] at hbegins
    cases hbegins

/-- At any other it steps over the character, and ends at NUL. -/
theorem tokenTurn_pass (fuel : Nat) {c : Char} (h : charAt string k = .ok c)
    (hbegins : beginsToken c = false) (lookahead : Char) (token : Name) :
    tokenTurn string fuel ⟨k, lookahead, token⟩ =
      if c ≠ Char.ofNat 0 then .ok (⟨k + 1, c, token⟩, true) else .ok (⟨k, c, token⟩, false) := by
  obtain ⟨hident, hslash, hcolon⟩ := beginsToken_eq_false_iff.mp hbegins
  rw [tokenTurn, h, ok_bind, if_neg hident, if_neg hslash, if_neg hcolon]
  by_cases hnul : c ≠ Char.ofNat 0
  · rw [if_pos hnul, if_pos hnul, bne_iff_ne.mpr hnul]
    rfl
  · rw [if_neg hnul, if_neg hnul, bne_eq_false_iff_eq.mpr (not_not.mp hnul)]
    rfl

theorem tokenTurn_progress (hfuel : string.length < fuel) {s : ScanState}
    (h : OuterInv string s) :
    Progress (tokenTurn string fuel) (OuterInv string)
      (ScanEnd string (Vfs.scanToken string).1 (Vfs.scanToken string).2)
      (fun s => string.length - s.length) s := by
  obtain ⟨k, lookahead, token⟩ := s
  obtain ⟨hinside, rfl, hsame⟩ := h
  change k ≤ string.length at hinside
  change Vfs.scanToken (string.drop k) = Vfs.scanToken string at hsame
  cases hnext : string.drop k with
  | nil =>
    obtain rfl := eq_length_of_drop hinside hnext
    have hturn := tokenTurn_pass fuel (charAt_end string) (by decide) lookahead []
    rw [if_neg (by decide)] at hturn
    rw [← hsame, hnext]
    exact .leaves hturn ⟨hinside, rfl, hnext⟩
  | cons c rest =>
    rw [hnext] at hsame
    cases hbegins : beginsToken c with
    | true =>
      obtain ⟨s, hturn, hs⟩ := tokenTurn_begins hfuel hnext hbegins lookahead
      rw [← hsame]
      exact .leaves hturn hs
    | false =>
      have hturn := tokenTurn_pass fuel (charAt_cons hnext) hbegins lookahead []
      by_cases hnul : c ≠ Char.ofNat 0
      · have hlt := lt_length_of_drop hnext
        rw [if_pos hnul] at hturn
        rw [scanToken_pass hbegins hnul, ← drop_succ_of_cons hnext] at hsame
        exact .goesOn hturn ⟨hlt, rfl, hsame⟩ (Nat.sub_lt_sub_left hlt (Nat.lt_succ_self k))
      · obtain rfl := not_not.mp hnul
        rw [if_neg hnul] at hturn
        rw [← hsame, scanToken_nul]
        exact .leaves hturn ⟨hinside, rfl, hnext⟩

/-- The loops end within the string, with what `scanToken` yields. -/
theorem Scanner.scanToken_eq (hfuel : string.length < fuel) :
    Scanner.scanToken fuel string = .ok (Vfs.scanToken string) := by
  cases string with
  | nil => rfl
  | cons c rest =>
    obtain ⟨s, hrun, hinside, htoken, hrest⟩ := doWhile_ok
      (fun s hs => tokenTurn_progress hfuel hs)
      (s := ⟨0, Char.ofNat 0, []⟩) ⟨Nat.zero_le _, rfl, rfl⟩ hfuel
    rw [Scanner.scanToken, if_neg (by simp), hrun, ok_bind, substr, if_pos hinside, ok_bind,
      htoken, hrest]
    rfl

example : Scanner.scanToken 5 [' ', '/', '/', 'a'] = .ok (['/'], ['a']) := by decide

/-- A call of `parse`, for a scanner that the fuel is enough for. -/
theorem Scanner.parse_succ (hfuel : string.length ≤ fuel) (branches : List Name) :
    Scanner.parse (fuel + 1) branches string =
      if (Vfs.scanToken (Vfs.scanToken string).2).1 = ['/'] then
        Scanner.parse fuel (branches ++ firstBranch (Vfs.scanToken string).1)
          (Vfs.scanToken (Vfs.scanToken string).2).2
      else .ok (branches ++ firstBranch (Vfs.scanToken string).1,
        (Vfs.scanToken (Vfs.scanToken string).2).2) := by
  have hle := scanToken_length_le string
  have hfirst := Scanner.scanToken_eq (Nat.lt_succ_of_le hfuel)
  have hsecond := Scanner.scanToken_eq (Nat.lt_succ_of_le (Nat.le_trans hle hfuel))
  rw [Scanner.parse, hfirst, ok_bind]
  simp only [hsecond, ok_bind]
  generalize Vfs.scanToken (Vfs.scanToken string).2 = second
  generalize (Vfs.scanToken string).1 = i
  by_cases hdots : i = ['.', '.'] ∨ i = ['.']
  · have hne : i ≠ [] := by
      rcases hdots with rfl | rfl <;> simp
    rw [if_pos hdots, firstBranch, if_pos hne]
    by_cases hslash : second.1 = ['/']
    · rw [if_neg (not_not.mpr hslash), if_pos hslash]
    · rw [if_pos hslash, if_neg hslash]
      rfl
  · have hbranch : (if i ≠ [] then branches ++ [i] else branches) =
        branches ++ firstBranch i := by
      rw [firstBranch]
      split_ifs
      · rfl
      · rw [List.append_nil]
    rw [if_neg hdots, hbranch]
    rfl

/-- The calls end with the branches of `parse`, behind those before. -/
theorem Scanner.parse_eq (hfuel : string.length < fuel) (branches : List Name) :
    Scanner.parse fuel branches string =
      .ok (branches ++ (Vfs.parse string).1, (Vfs.parse string).2) := by
  induction fuel generalizing string branches with
  | zero => exact absurd hfuel (Nat.not_lt_zero _)
  | succ fuel ih =>
    rw [Scanner.parse_succ (Nat.le_of_lt_succ hfuel), Vfs.parse_eq]
    by_cases hslash : (Vfs.scanToken (Vfs.scanToken string).2).1 = ['/']
    · -- the slash has been taken out of the scanner
      have hlt := scanToken_length_lt (hslash ▸ List.cons_ne_nil '/' [])
      have hle := scanToken_length_le string
      rw [if_pos hslash, if_pos hslash, ih (by omega), List.append_assoc]
    · rw [if_neg hslash, if_neg hslash]

end Loops

/-! ## The first token -/

/-- No token begins before the end of the string, or before its first NUL. -/
def NoToken (string : List Char) : Prop :=
  ∀ c ∈ string.takeWhile (· != Char.ofNat 0), beginsToken c = false

/-- The characters of a token, the token, and what stands behind them: a run of identifier
characters or of slashes does not go on there. -/
inductive Lexeme : List Char → Name → List Char → Prop
  | identifier {c rest : List Char} (hc : IsComponent c) (hrest : Ends rest) : Lexeme c c rest
  | slashes (n : Nat) {rest : List Char} (hrest : rest.head? ≠ some '/') :
      Lexeme (List.replicate (n + 1) '/') ['/'] rest
  | colon (n : Nat) {rest : List Char} (hrest : rest.head? ≠ some '/') :
      Lexeme (':' :: List.replicate n '/') [':'] rest

/-- The first token of a string, and what stands behind it. -/
def FirstToken (string : List Char) (token : Name) (rest : List Char) : Prop :=
  ∃ passed lexeme, string = passed ++ (lexeme ++ rest) ∧
    (∀ c ∈ passed, beginsToken c = false ∧ c ≠ Char.ofNat 0) ∧ Lexeme lexeme token rest

theorem Lexeme.ne_nil {lexeme token rest : List Char} (h : Lexeme lexeme token rest) :
    lexeme ≠ [] ∧ token ≠ [] := by
  cases h with
  | identifier hc _ => exact ⟨hc.ne, hc.ne⟩
  | slashes n _ => simp
  | colon n _ => simp

theorem dropWhile_slash_of_head? {s : List Char} (h : s.head? ≠ some '/') :
    s.dropWhile (· == '/') = s :=
  List.dropWhile_beq_eq_self_of_head?_ne h

theorem Lexeme.scanToken_eq {lexeme token rest : List Char} (h : Lexeme lexeme token rest) :
    scanToken (lexeme ++ rest) = (token, rest) := by
  cases h with
  | identifier hc hrest => exact scanToken_component hc hrest
  | slashes n hrest => exact scanToken_slashes (dropWhile_slash_of_head? hrest) n
  | colon n hrest =>
    have hall : ∀ x ∈ List.replicate n '/', (x == '/') = true := by simp
    rw [List.cons_append, scanToken, if_neg (by decide), if_neg (by decide), if_pos rfl,
      List.dropWhile_append_of_pos hall, dropWhile_slash_of_head? hrest]

/-- The scanner finds the first token. -/
theorem FirstToken.scanToken_eq {string rest : List Char} {token : Name}
    (h : FirstToken string token rest) : scanToken string = (token, rest) := by
  obtain ⟨passed, lexeme, rfl, hpassed, hlexeme⟩ := h
  induction passed with
  | nil => exact hlexeme.scanToken_eq
  | cons c passed ih =>
    obtain ⟨hbegins, hnul⟩ := hpassed c (List.mem_cons_self ..)
    rw [List.cons_append, scanToken_pass hbegins hnul]
    exact ih fun c' hc' => hpassed c' (List.mem_cons_of_mem c hc')

theorem noToken_cons {c : Char} (hnul : c ≠ Char.ofNat 0) (rest : List Char) :
    NoToken (c :: rest) ↔ beginsToken c = false ∧ NoToken rest := by
  simp [NoToken, hnul]

theorem noToken_nul (rest : List Char) : NoToken (Char.ofNat 0 :: rest) := by
  simp [NoToken]

/-- Without one it goes on to the end, or to the first NUL, which it leaves. -/
theorem NoToken.scanToken_eq {string : List Char} (h : NoToken string) :
    scanToken string = ([], string.dropWhile (· != Char.ofNat 0)) := by
  induction string with
  | nil => rfl
  | cons c rest ih =>
    by_cases hnul : c = Char.ofNat 0
    · rw [hnul, scanToken_nul]
      rfl
    · obtain ⟨hbegins, hno⟩ := (noToken_cons hnul rest).mp h
      rw [scanToken_pass hbegins hnul, ih hno,
        List.dropWhile_cons_of_pos (by simpa using hnul)]

/-- What stands behind a run does not go on with it. -/
theorem head?_dropWhile_ne {p : Char → Bool} {c : Char} (hc : p c = true) (l : List Char) :
    (l.dropWhile p).head? ≠ some c := by
  intro hhead
  have hnot := List.head?_dropWhile_not p l
  rw [hhead] at hnot
  exact Bool.noConfusion (hc.symm.trans hnot)

theorem ends_dropWhile (l : List Char) : Ends (l.dropWhile checkIdentifier) := by
  intro x rest h
  by_contra hx
  exact head?_dropWhile_ne (by simpa using hx) l (by rw [h, List.head?_cons])

/-- The slashes in front of a string. -/
theorem slashes_append (l : List Char) :
    ∃ n, l = List.replicate n '/' ++ l.dropWhile (· == '/') := by
  have hall : ∀ x ∈ l.takeWhile (· == '/'), x = '/' := by
    intro x hx
    have hpass := List.mem_takeWhile_imp hx
    exact beq_iff_eq.mp hpass
  refine ⟨(l.takeWhile (· == '/')).length, ?_⟩
  rw [← List.eq_replicate_of_mem hall, List.takeWhile_append_dropWhile]

/-- A character that begins a token is the first of one. -/
theorem firstToken_of_begins {c : Char} (h : beginsToken c = true) (rest : List Char) :
    ∃ token behind, FirstToken (c :: rest) token behind := by
  by_cases hident : checkIdentifier c = true
  · have hc : IsComponent (c :: rest.takeWhile checkIdentifier) := by
      refine ⟨List.cons_ne_nil _ _, fun x hx => ?_⟩
      rcases List.mem_cons.mp hx with rfl | hx
      · exact hident
      · exact List.mem_takeWhile_imp hx
    refine ⟨_, _, [], _, ?_, by simp, .identifier hc (ends_dropWhile rest)⟩
    rw [List.nil_append, List.cons_append, List.takeWhile_append_dropWhile]
  obtain ⟨n, hslashes⟩ := slashes_append rest
  have hbehind : (rest.dropWhile (· == '/')).head? ≠ some '/' :=
    head?_dropWhile_ne (by decide) rest
  by_cases hslash : c = '/'
  · refine ⟨_, _, [], _, ?_, by simp, .slashes n hbehind⟩
    rw [List.nil_append, List.replicate_succ, List.cons_append, ← hslashes, hslash]
  by_cases hcolon : c = ':'
  · refine ⟨_, _, [], _, ?_, by simp, .colon n hbehind⟩
    rw [List.nil_append, List.cons_append, ← hslashes, hcolon]
  · rw [beginsToken_eq_false_iff.mpr ⟨hident, hslash, hcolon⟩] at h
    cases h

theorem noToken_or_firstToken (string : List Char) :
    NoToken string ∨ ∃ token rest, FirstToken string token rest := by
  induction string with
  | nil => exact .inl (by simp [NoToken])
  | cons c string ih =>
    cases hbegins : beginsToken c with
    | true => exact .inr (firstToken_of_begins hbegins string)
    | false =>
      by_cases hnul : c = Char.ofNat 0
      · exact .inl (hnul ▸ noToken_nul string)
      rcases ih with hno | ⟨token, rest, passed, lexeme, rfl, hpassed, hlexeme⟩
      · exact .inl ((noToken_cons hnul string).mpr ⟨hbegins, hno⟩)
      · refine .inr ⟨token, rest, c :: passed, lexeme, rfl, fun c' hc' => ?_, hlexeme⟩
        rcases List.mem_cons.mp hc' with rfl | hc'
        · exact ⟨hbegins, hnul⟩
        · exact hpassed c' hc'

theorem FirstToken.suffix {string rest : List Char} {token : Name}
    (h : FirstToken string token rest) : rest <:+ string ∧ rest.length < string.length := by
  obtain ⟨passed, lexeme, rfl, _, hlexeme⟩ := h
  have hpos := List.length_pos_iff.mpr hlexeme.ne_nil.1
  refine ⟨⟨passed ++ lexeme, List.append_assoc ..⟩, ?_⟩
  rw [List.length_append, List.length_append]
  omega

theorem FirstToken.token_ne_nil {string rest : List Char} {token : Name}
    (h : FirstToken string token rest) : token ≠ [] := by
  obtain ⟨_, _, _, _, hlexeme⟩ := h
  exact hlexeme.ne_nil.2

/-- The scanner ends on every string, without a token if there is none before the end or the
first NUL, and otherwise with the first one, behind which it leaves a shorter string. So does
`parse`, whatever is left in the scanner. -/
theorem scanToken_progress (string : List Char) :
    (∃ token rest,
      (∀ fuel, string.length < fuel → Scanner.scanToken fuel string = .ok (token, rest)) ∧
      (token = [] ↔ NoToken string) ∧
      (¬ NoToken string →
        FirstToken string token rest ∧ rest <:+ string ∧ rest.length < string.length)) ∧
    ∀ branches, ∃ r, ∀ fuel, string.length < fuel →
      Scanner.parse fuel branches string = .ok r := by
  refine ⟨⟨_, _, fun fuel hfuel => Scanner.scanToken_eq hfuel, ?_⟩,
    fun branches => ⟨_, fun fuel hfuel => Scanner.parse_eq hfuel branches⟩⟩
  rcases noToken_or_firstToken string with hno | ⟨token, rest, hfirst⟩
  · rw [hno.scanToken_eq]
    exact ⟨⟨fun _ => hno, fun _ => rfl⟩, fun hsome => absurd hno hsome⟩
  · rw [hfirst.scanToken_eq]
    refine ⟨⟨fun hnil => absurd hnil hfirst.token_ne_nil, fun hno => ?_⟩,
      fun _ => ⟨hfirst, hfirst.suffix⟩⟩
    exact (Prod.mk.inj (hfirst.scanToken_eq.symm.trans hno.scanToken_eq)).1

end Betavita.Vfs
