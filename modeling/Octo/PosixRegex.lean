/-
Extended regular expressions of POSIX.  What the standard leaves undefined is no
regular expression here.  Matching relates an expression, the text that it
matches and what stands before and behind it, where the anchors look.
-/
import Mathlib.Data.List.Basic
import Mathlib.Data.Char

namespace PosixRegex

open List Option

inductive Regex
  | one (accepts : Char → Bool)
  | start
  | finish
  | cat (first second : Regex)
  | alt (first second : Regex)
  | times (regex : Regex) (least : Nat) (most : Option Nat)

/-- Matching so many times, one match behind the other. -/
def Iterated (matching : List Char → List Char → List Char → Prop) :
    Nat → List Char → List Char → List Char → Prop
  | 0, _, text, _ => text = []
  | n + 1, before, text, behind =>
    ∃ first rest, text = first ++ rest ∧ matching before first (rest ++ behind) ∧
      Iterated matching n (before ++ first) rest behind

/-- The expression matches the text in the middle. -/
def Regex.Matches : Regex → List Char → List Char → List Char → Prop
  | one accepts, _, text, _ => ∃ c, text = [c] ∧ accepts c = true
  | start, before, text, _ => text = [] ∧ before = []
  | finish, _, text, behind => text = [] ∧ behind = []
  | cat first second, before, text, behind =>
    ∃ left right, text = left ++ right ∧
      first.Matches before left (right ++ behind) ∧ second.Matches (before ++ left) right behind
  | alt first second, before, text, behind =>
    first.Matches before text behind ∨ second.Matches before text behind
  | times regex least most, before, text, behind =>
    ∃ n, least ≤ n ∧ (∀ bound ∈ most, n ≤ bound) ∧ Iterated regex.Matches n before text behind

/-- The expression matches a part of the subject. -/
def Regex.Search (regex : Regex) (subject : List Char) : Prop :=
  ∃ before text behind, subject = before ++ text ++ behind ∧ regex.Matches before text behind

/-- The characters that do not stand for themselves.  A closing parenthesis does
where no group is open. -/
def specialCharacters : List Char :=
  ['^', '.', '[', '$', '(', '|', '*', '+', '?', '\x7b', '\\']

def isDuplication (c : Char) : Bool :=
  c ∈ ['*', '+', '?', '\x7b']

def readCount (text : List Char) : Option (Nat × List Char) :=
  let digits := text.takeWhile Char.isDigit
  if digits = [] then none
  else
    some (digits.foldl (fun n c => 10 * n + (c.toNat - '0'.toNat)) 0, text.dropWhile Char.isDigit)

/-- The least and the greatest number of an interval, up to the brace. -/
def readInterval (text : List Char) : Option ((Nat × Option Nat) × List Char) := do
  let (least, rest) ← readCount text
  match rest with
  | '\x7d' :: rest => some ((least, some least), rest)
  | ',' :: '\x7d' :: rest => some ((least, none), rest)
  | ',' :: rest => do
    let (most, rest) ← readCount rest
    match rest with
    | '\x7d' :: rest =>
      if least ≤ most then some ((least, some most), rest) else none
    | _ => none
  | _ => none

/-- The symbols behind an expression that repeat it. -/
def readDuplications : Nat → Regex → List Char → Option (Regex × List Char)
  | 0, _, _ => none
  | fuel + 1, regex, text =>
    match text with
    | '*' :: rest => readDuplications fuel (.times regex 0 none) rest
    | '+' :: rest => readDuplications fuel (.times regex 1 none) rest
    | '?' :: rest => readDuplications fuel (.times regex 0 (some 1)) rest
    | '\x7b' :: rest => do
      let ((least, most), rest) ← readInterval rest
      readDuplications fuel (.times regex least most) rest
    | text => some (regex, text)

def characterClass (className : List Char) : Option (Char → Bool) :=
  match String.ofList className with
  | "alpha" => some Char.isAlpha
  | "digit" => some Char.isDigit
  | "alnum" => some Char.isAlphanum
  | "upper" => some Char.isUpper
  | "lower" => some Char.isLower
  | "space" => some fun c => c = ' ' || ('\t' ≤ c && c ≤ '\r')
  | "blank" => some fun c => c = ' ' || c = '\t'
  | "punct" => some fun c => '!' ≤ c && c ≤ '~' && !c.isAlphanum
  | "print" => some fun c => ' ' ≤ c && c ≤ '~'
  | "graph" => some fun c => '!' ≤ c && c ≤ '~'
  | "cntrl" => some fun c => c < ' ' || c = '\x7f'
  | "xdigit" => some fun c => c.isDigit || c ∈ "abcdefABCDEF".toList
  | _ => none

/-- What a bracket expression lists, up to its closing bracket.  Collating
elements depend on the locale and are left out. -/
def readBracket : Nat → List Char → Option ((Char → Bool) × List Char)
  | 0, _ => none
  | fuel + 1, text =>
    match text with
    | [] => none
    | ']' :: rest => some (fun _ => false, rest)
    | '[' :: ':' :: rest => do
      let accepts ← characterClass (rest.takeWhile (· ≠ ':'))
      match rest.dropWhile (· ≠ ':') with
      | ':' :: ']' :: rest => do
        let (others, rest) ← readBracket fuel rest
        some (fun c => accepts c || others c, rest)
      | _ => none
    | '[' :: '.' :: _ => none
    | '[' :: '=' :: _ => none
    | c :: '-' :: d :: rest =>
      if d = ']' then do
        let (others, rest) ← readBracket fuel ('-' :: d :: rest)
        some (fun x => x == c || others x, rest)
      else do
        let (others, rest) ← readBracket fuel rest
        some (fun x => (c ≤ x && x ≤ d) || others x, rest)
    | c :: rest => do
      let (others, rest) ← readBracket fuel rest
      some (fun x => x == c || others x, rest)

/-- A bracket expression, from behind its opening bracket.  A closing bracket
that comes first is one of the characters. -/
def parseBracket (text : List Char) : Option (Regex × List Char) := do
  let negated := text.head? = some '^'
  let text := if negated then text.drop 1 else text
  let (listed, rest) ← match text with
    | ']' :: rest => do
      let (others, rest) ← readBracket rest.length rest
      some (fun c => c == ']' || others c, rest)
    | text => readBracket text.length text
  some (.one fun c => if negated then !listed c else listed c, rest)

def parseCharacter : List Char → Option (Regex × List Char)
  | '.' :: rest => some (.one fun _ => true, rest)
  | '^' :: rest => some (.start, rest)
  | '$' :: rest => some (.finish, rest)
  | '[' :: rest => parseBracket rest
  | '\\' :: c :: rest =>
    if c = ')' ∨ c ∈ specialCharacters then some (.one (· == c), rest) else none
  | c :: rest =>
    if c ∈ specialCharacters then none else some (.one (· == c), rest)
  | [] => none

def endsBranch (nested : Bool) : List Char → Bool
  | [] => true
  | c :: _ => c = '|' || (nested && c = ')')

mutual

/-- Alternatives, within a group if `nested`. -/
def parseAlternatives (nested : Bool) : Nat → List Char → Option (Regex × List Char)
  | 0, _ => none
  | fuel + 1, text => do
    let (first, rest) ← parseBranch nested fuel text
    match rest with
    | '|' :: rest => do
      let (second, rest) ← parseAlternatives nested fuel rest
      some (.alt first second, rest)
    | rest => some (first, rest)

/-- Expressions one behind the other, at least one. -/
def parseBranch (nested : Bool) : Nat → List Char → Option (Regex × List Char)
  | 0, _ => none
  | fuel + 1, text => do
    let (atom, rest) ← parseAtom nested fuel text
    let (piece, rest) ← readDuplications (rest.length + 1) atom rest
    if endsBranch nested rest then some (piece, rest)
    else do
      let (more, rest) ← parseBranch nested fuel rest
      some (.cat piece more, rest)

def parseAtom (nested : Bool) : Nat → List Char → Option (Regex × List Char)
  | 0, _ => none
  | fuel + 1, text =>
    match text with
    | '(' :: rest => do
      let (regex, rest) ← parseAlternatives true fuel rest
      match rest with
      | ')' :: rest => some (regex, rest)
      | _ => none
    | text => if nested && text.head? = some ')' then none else parseCharacter text

end

def parse (text : List Char) : Option Regex :=
  match parseAlternatives false (3 * text.length + 3) text with
  | some (regex, []) => some regex
  | _ => none

/-- A text, as a regular expression, matches a part of the subject. -/
def TextMatches (text subject : List Char) : Prop :=
  ∃ regex, parse text = some regex ∧ regex.Search subject

section Renamed

variable (f : Char → Char)

/-- What the expression takes, it takes with its characters renamed. -/
def Regex.Respects : Regex → Prop
  | one accepts => ∀ c, accepts c = true → accepts (f c) = true
  | start => True
  | finish => True
  | cat first second => first.Respects ∧ second.Respects
  | alt first second => first.Respects ∧ second.Respects
  | times regex _ _ => regex.Respects

variable {f}

variable {before behind rest subject text : List Char} {regex : Regex} {read : Regex × List Char}

theorem Iterated.map {matching : List Char → List Char → List Char → Prop}
    (hmatching : ∀ before text behind, matching before text behind →
      matching (before.map f) (text.map f) (behind.map f)) {n : Nat}
    (hiterated : Iterated matching n before text behind) :
    Iterated matching n (before.map f) (text.map f) (behind.map f) := by
  induction n generalizing before text with
  | zero =>
    cases hiterated
    rfl
  | succ n ih =>
    obtain ⟨first, rest, rfl, hfirst, hrest⟩ := hiterated
    have hfirst' := hmatching _ _ _ hfirst
    have hrest' := ih hrest
    rw [map_append] at hfirst' hrest'
    exact ⟨first.map f, rest.map f, map_append, hfirst', hrest'⟩

theorem Regex.Matches.map (hregex : regex.Respects f)
    (hmatches : regex.Matches before text behind) :
    regex.Matches (before.map f) (text.map f) (behind.map f) := by
  induction regex generalizing before text behind with
  | one accepts =>
    obtain ⟨c, rfl, hc⟩ := hmatches
    exact ⟨f c, rfl, hregex c hc⟩
  | start | finish =>
    obtain ⟨rfl, rfl⟩ := hmatches
    exact ⟨rfl, rfl⟩
  | cat first second ihFirst ihSecond =>
    obtain ⟨left, right, rfl, hleft, hright⟩ := hmatches
    have hleft' := ihFirst hregex.1 hleft
    have hright' := ihSecond hregex.2 hright
    rw [map_append] at hleft' hright'
    exact ⟨left.map f, right.map f, map_append, hleft', hright'⟩
  | alt first second ihFirst ihSecond =>
    exact hmatches.imp (ihFirst hregex.1) (ihSecond hregex.2)
  | times regex least most ih =>
    obtain ⟨n, hleast, hmost, hiterated⟩ := hmatches
    exact ⟨n, hleast, hmost, hiterated.map fun _ _ _ hmatching => ih hregex hmatching⟩

theorem Regex.Search.map (hregex : regex.Respects f) (hsearch : regex.Search subject) :
    regex.Search (subject.map f) := by
  obtain ⟨before, text, behind, rfl, hmatches⟩ := hsearch
  exact ⟨before.map f, text.map f, behind.map f,
    by rw [map_append, map_append], hmatches.map hregex⟩

/-- The renaming leaves the characters alone that stand for themselves. -/
def KeepsOrdinary (f : Char → Char) : Prop :=
  ∀ c, c ∉ specialCharacters → f c = c

/-- Neither brackets nor backslashes. -/
def isDirect (text : List Char) : Bool :=
  '[' ∉ text && '\\' ∉ text

theorem isDirect_of_suffix (htext : isDirect text = true) (hrest : rest <:+ text) :
    isDirect rest = true := by
  simp only [isDirect, Bool.and_eq_true, decide_eq_true_eq] at htext ⊢
  exact ⟨fun h => htext.1 (hrest.subset h), fun h => htext.2 (hrest.subset h)⟩

theorem readCount_suffix {n : Nat} (hread : readCount text = some (n, rest)) : rest <:+ text := by
  unfold readCount at hread
  dsimp only at hread
  split_ifs at hread
  cases hread
  exact dropWhile_suffix _

theorem readInterval_suffix {bounds : Nat × Option Nat}
    (hread : readInterval text = some (bounds, rest)) : rest <:+ text := by
  unfold readInterval at hread
  simp only [bind_eq_bind, bind_eq_some_iff] at hread
  obtain ⟨⟨least, later⟩, hleast, hread⟩ := hread
  have hlater := readCount_suffix hleast
  dsimp only at hread
  split at hread
  · cases hread
    exact (suffix_cons _ _).trans hlater
  · cases hread
    exact (suffix_append [_, _] _).trans hlater
  · simp only [bind_eq_some_iff] at hread
    obtain ⟨⟨most, later'⟩, hmost, hread⟩ := hread
    have hlater' := readCount_suffix hmost
    dsimp only at hread
    split at hread
    · split_ifs at hread
      cases hread
      exact ((suffix_cons _ _).trans hlater').trans ((suffix_cons _ _).trans hlater)
    · cases hread
  · cases hread

/-- What is read respects the renaming and ends in the text. -/
def ReadsFrom (f : Char → Char) (text : List Char) (read : Regex × List Char) : Prop :=
  read.1.Respects f ∧ read.2 <:+ text

theorem readDuplications_readsFrom {fuel : Nat} (hregex : regex.Respects f)
    (hread : readDuplications fuel regex text = some read) : ReadsFrom f text read := by
  induction fuel generalizing regex text with
  | zero => cases hread
  | succ fuel ih =>
    have htimes : ∀ least most, (regex.times least most).Respects f :=
      fun _ _ => hregex
    unfold readDuplications at hread
    split at hread
    iterate 3
      · have hrest := ih (htimes _ _) hread
        exact ⟨hrest.1, hrest.2.trans (suffix_cons _ _)⟩
    · simp only [bind_eq_bind, bind_eq_some_iff] at hread
      obtain ⟨⟨bounds, later⟩, hinterval, hread⟩ := hread
      have hrest := ih (htimes _ _) hread
      exact ⟨hrest.1, (hrest.2.trans (readInterval_suffix hinterval)).trans (suffix_cons _ _)⟩
    · cases hread
      exact ⟨hregex, suffix_rfl⟩

theorem parseCharacter_readsFrom (hf : KeepsOrdinary f) (htext : isDirect text = true)
    (hread : parseCharacter text = some read) : ReadsFrom f text read := by
  unfold parseCharacter at hread
  split at hread
  · cases hread
    exact ⟨fun _ _ => rfl, suffix_cons _ _⟩
  · cases hread
    exact ⟨trivial, suffix_cons _ _⟩
  · cases hread
    exact ⟨trivial, suffix_cons _ _⟩
  · simp [isDirect] at htext
  · simp [isDirect] at htext
  · split_ifs at hread with hspecial
    cases hread
    refine ⟨?_, suffix_cons _ _⟩
    intro c hc
    rw [eq_of_beq hc, hf _ hspecial]
    exact beq_self_eq_true _
  · cases hread

/-- Without brackets and backslashes, the characters an expression asks for are
ordinary ones. -/
theorem parse_readsFrom (hf : KeepsOrdinary f) (nested : Bool) (fuel : Nat) :
    (∀ text read, isDirect text = true →
    parseAlternatives nested fuel text = some read → ReadsFrom f text read) ∧
    (∀ text read, isDirect text = true →
    parseBranch nested fuel text = some read → ReadsFrom f text read) ∧
    (∀ text read, isDirect text = true →
    parseAtom nested fuel text = some read → ReadsFrom f text read) := by
  induction fuel generalizing nested with
  | zero => exact ⟨nofun, nofun, nofun⟩
  | succ fuel ih =>
    obtain ⟨ihAlternatives, ihBranch, ihAtom⟩ := ih nested
    refine ⟨?_, ?_, ?_⟩
    · intro text read htext hread
      simp only [parseAlternatives, bind_eq_bind, bind_eq_some_iff] at hread
      obtain ⟨⟨first, later⟩, hfirst, hread⟩ := hread
      obtain ⟨hrespects, hlater⟩ := ihBranch text _ htext hfirst
      dsimp only at hread hrespects hlater
      split at hread
      · simp only [bind_eq_some_iff] at hread
        obtain ⟨⟨second, rest⟩, hsecond, ⟨⟩⟩ := hread
        have hsuffix := (suffix_cons _ _).trans hlater
        obtain ⟨hrespects', hrest⟩ := ihAlternatives _ _ (isDirect_of_suffix htext hsuffix) hsecond
        exact ⟨⟨hrespects, hrespects'⟩, hrest.trans hsuffix⟩
      · cases hread
        exact ⟨hrespects, hlater⟩
    · intro text read htext hread
      simp only [parseBranch, bind_eq_bind, bind_eq_some_iff] at hread
      obtain ⟨⟨atom, later⟩, hatom, ⟨piece, rest⟩, hpiece, hread⟩ := hread
      obtain ⟨hrespects, hlater⟩ := ihAtom text _ htext hatom
      obtain ⟨hrespects', hrest⟩ :=
        readDuplications_readsFrom hrespects hpiece
      have hsuffix := hrest.trans hlater
      split_ifs at hread
      · cases hread
        exact ⟨hrespects', hsuffix⟩
      · simp only [bind_eq_some_iff] at hread
        obtain ⟨⟨more, last⟩, hmore, ⟨⟩⟩ := hread
        obtain ⟨hrespects'', hlast⟩ := ihBranch _ _ (isDirect_of_suffix htext hsuffix) hmore
        exact ⟨⟨hrespects', hrespects''⟩, hlast.trans hsuffix⟩
    · intro text read htext hread
      unfold parseAtom at hread
      split at hread
      · simp only [bind_eq_bind, bind_eq_some_iff] at hread
        obtain ⟨⟨regex, later⟩, hregex, hread⟩ := hread
        obtain ⟨hrespects, hlater⟩ := (ih true).1 _ _
          (isDirect_of_suffix htext (suffix_cons _ _)) hregex
        dsimp only at hread hlater
        split at hread
        · cases hread
          exact ⟨hrespects, ((suffix_cons _ _).trans hlater).trans (suffix_cons _ _)⟩
        · cases hread
      · split_ifs at hread
        exact parseCharacter_readsFrom hf htext hread

theorem TextMatches.map (hf : KeepsOrdinary f) (htext : isDirect text = true)
    (hmatches : TextMatches text subject) : TextMatches text (subject.map f) := by
  obtain ⟨regex, hparse, hsearch⟩ := hmatches
  refine ⟨regex, hparse, hsearch.map ?_⟩
  unfold parse at hparse
  split at hparse
  · rename_i parsed hparsed
    cases hparse
    exact ((parse_readsFrom hf false _).1 text _ htext hparsed).1
  · cases hparse

end Renamed

section Pieces

/-- The expressions of which texts without groups, alternatives and other
repetitions are made. -/
inductive Piece
  | character (c : Char)
  | any
  | anyText
  | start
  | finish

namespace Piece

def text : Piece → List Char
  | character c => [c]
  | any => ['.']
  | anyText => ['.', '*']
  | start => ['^']
  | finish => ['$']

def regex : Piece → Regex
  | character c => .one (· == c)
  | any => .one fun _ => true
  | anyText => .times (.one fun _ => true) 0 none
  | start => .start
  | finish => .finish

def isOrdinary : Piece → Bool
  | character c => c ∉ specialCharacters
  | _ => true

end Piece

def piecesText (pieces : List Piece) : List Char :=
  pieces.flatMap Piece.text

def catAll (first : Regex) : List Regex → Regex
  | [] => first
  | second :: rest => .cat first (catAll second rest)

def MatchesAll : List Regex → List Char → List Char → List Char → Prop
  | [], _, text, _ => text = []
  | first :: rest, before, text, behind =>
    ∃ left right, text = left ++ right ∧
      first.Matches before left (right ++ behind) ∧ MatchesAll rest (before ++ left) right behind

theorem matches_catAll_iff (first : Regex) (rest : List Regex) (before text behind : List Char) :
    (catAll first rest).Matches before text behind ↔
    MatchesAll (first :: rest) before text behind := by
  induction rest generalizing first before text with
  | nil =>
    simp only [catAll, MatchesAll]
    constructor
    · intro hmatches
      exact ⟨text, [], by simp, by simpa using hmatches, rfl⟩
    · rintro ⟨left, right, rfl, hleft, rfl⟩
      simpa using hleft
  | cons second rest ih =>
    rw [catAll, Regex.Matches, MatchesAll]
    simp only [ih]

def noDuplication (text : List Char) : Bool :=
  !text.head?.any isDuplication

theorem readDuplications_eq {text : List Char} (htext : noDuplication text = true) (fuel : Nat)
    (regex : Regex) : readDuplications (fuel + 1) regex text = some (regex, text) := by
  unfold readDuplications
  split
  · simp [noDuplication, isDuplication] at htext
  · simp [noDuplication, isDuplication] at htext
  · simp [noDuplication, isDuplication] at htext
  · simp [noDuplication, isDuplication] at htext
  · rfl

theorem parseCharacter_ordinary {c : Char} (hc : c ∉ specialCharacters) (rest : List Char) :
    parseCharacter (c :: rest) = some (.one (· == c), rest) := by
  simp only [specialCharacters, mem_cons, not_mem_nil, or_false, not_or] at hc
  rw [parseCharacter]
  · simp [specialCharacters, hc]
  all_goals simp [hc]

variable {piece : Piece} {pieces rest : List Piece}

/-- A piece is read with the symbol that repeats it. -/
theorem parse_piece (hpiece : piece.isOrdinary = true) {rest : List Char}
    (hrest : noDuplication rest = true) (fuel : Nat) :
    ∃ atom later, parseAtom false (fuel + 1) (piece.text ++ rest) = some (atom, later) ∧
    readDuplications (later.length + 1) atom later = some (piece.regex, rest) := by
  cases piece with
  | character c =>
    have hc : c ∉ specialCharacters := by
      simpa [Piece.isOrdinary] using hpiece
    refine ⟨.one (· == c), rest, ?_, readDuplications_eq hrest _ _⟩
    rw [Piece.text, singleton_append, parseAtom]
    · exact parseCharacter_ordinary hc rest
    · rintro later heq
      have hopen : c = '(' := (List.cons.inj heq).1
      subst hopen
      simp [specialCharacters] at hc
  | any =>
    exact ⟨.one fun _ => true, rest, rfl, readDuplications_eq hrest _ _⟩
  | anyText =>
    refine ⟨.one fun _ => true, '*' :: rest, rfl, ?_⟩
    exact readDuplications_eq hrest _ _
  | start => exact ⟨.start, rest, rfl, readDuplications_eq hrest _ _⟩
  | finish => exact ⟨.finish, rest, rfl, readDuplications_eq hrest _ _⟩

theorem Piece.exists_text (hpiece : piece.isOrdinary = true) : ∃ c rest, piece.text = c ::
    rest ∧ isDuplication c = false ∧ c ≠ '|' := by
  cases piece with
  | character c =>
    have hc : c ∉ specialCharacters := by
      simpa [Piece.isOrdinary] using hpiece
    simp only [specialCharacters, mem_cons, not_mem_nil, or_false, not_or] at hc
    exact ⟨c, [], rfl, by simp [isDuplication, hc], by simp [hc]⟩
  | any => exact ⟨'.', [], rfl, rfl, by decide⟩
  | anyText => exact ⟨'.', ['*'], rfl, rfl, by decide⟩
  | start => exact ⟨'^', [], rfl, rfl, by decide⟩
  | finish => exact ⟨'$', [], rfl, rfl, by decide⟩

theorem noDuplication_piecesText (hpieces : ∀ piece ∈ pieces, piece.isOrdinary = true) :
    noDuplication (piecesText pieces) = true := by
  cases pieces with
  | nil => rfl
  | cons piece rest =>
    obtain ⟨c, later, htext, hc, -⟩ :=
      Piece.exists_text (hpieces piece mem_cons_self)
    simp [piecesText, htext, noDuplication, hc]

theorem parseBranch_pieces (hpieces : ∀ other ∈ piece :: rest, other.isOrdinary = true) {fuel : Nat}
    (hfuel : rest.length + 2 ≤ fuel) : parseBranch false fuel (piecesText (piece :: rest)) =
    some (catAll piece.regex (rest.map Piece.regex), []) := by
  induction rest generalizing piece fuel with
  | nil =>
    obtain ⟨fuel, rfl⟩ : ∃ less, fuel = less + 2 :=
      ⟨fuel - 2, by rw [length_nil] at hfuel; omega⟩
    have hend : noDuplication [] = true := rfl
    obtain ⟨atom, later, hatom, hread⟩ :=
      parse_piece (hpieces piece mem_cons_self) hend fuel
    have htext : piecesText [piece] = piece.text ++ [] := by
      simp [piecesText]
    rw [htext, parseBranch, hatom]
    simp [hread, endsBranch, catAll]
  | cons second rest ih =>
    rw [length_cons] at hfuel
    obtain ⟨fuel, rfl⟩ : ∃ less, fuel = less + 2 := ⟨fuel - 2, by omega⟩
    rw [forall_mem_cons] at hpieces
    obtain ⟨atom, later, hatom, hread⟩ := parse_piece hpieces.1
      (noDuplication_piecesText hpieces.2) fuel
    obtain ⟨c, text, htext, -, hbar⟩ :=
      Piece.exists_text (hpieces.2 second mem_cons_self)
    have hends : endsBranch false (piecesText (second :: rest)) = false := by
      simp [piecesText, htext, endsBranch, hbar]
    have hfuel' : rest.length + 2 ≤ fuel + 1 := by omega
    have hmore := ih hpieces.2 hfuel'
    have hsplit : piecesText (piece :: second :: rest) =
        piece.text ++ piecesText (second :: rest) := rfl
    rw [hsplit, parseBranch, hatom]
    simp [hread, hends, hmore, catAll]

theorem length_le_piecesText (hpieces : ∀ piece ∈ pieces, piece.isOrdinary = true) :
    pieces.length ≤ (piecesText pieces).length := by
  induction pieces with
  | nil => simp
  | cons piece rest ih =>
    rw [forall_mem_cons] at hpieces
    obtain ⟨c, text, htext, -⟩ := Piece.exists_text hpieces.1
    have hrest := ih hpieces.2
    rw [piecesText] at hrest
    simp only [piecesText, flatMap_cons, htext, length_append, length_cons]
    omega

/-- A text made of pieces matches where the pieces match one behind the
other. -/
theorem textMatches_pieces_iff (hpieces : ∀ other ∈ piece :: rest, other.isOrdinary = true)
    (subject : List Char) : TextMatches (piecesText (piece :: rest)) subject ↔
    ∃ before text behind, subject = before ++ text ++ behind ∧
    MatchesAll ((piece :: rest).map Piece.regex) before text behind := by
  have hlength := length_le_piecesText hpieces
  rw [length_cons] at hlength
  have hparse : parse (piecesText (piece :: rest)) =
      some (catAll piece.regex (rest.map Piece.regex)) := by
    rw [parse, parseAlternatives, parseBranch_pieces hpieces (by omega)]
    rfl
  simp [TextMatches, hparse, Regex.Search, matches_catAll_iff]

theorem matchesAll_append_iff (first second : List Regex) (before text behind : List Char) :
    MatchesAll (first ++ second) before text behind ↔ ∃ left right, text = left ++ right ∧
    MatchesAll first before left (right ++ behind) ∧
    MatchesAll second (before ++ left) right behind := by
  induction first generalizing before text with
  | nil =>
    simp [MatchesAll]
  | cons regex first ih =>
    simp only [cons_append, MatchesAll, ih]
    constructor
    · rintro ⟨left, right, rfl, hregex, middle, last, rfl, hfirst, hsecond⟩
      refine ⟨left ++ middle, last, by simp, ⟨left, middle, rfl, ?_, hfirst⟩,
        by simpa using hsecond⟩
      simpa using hregex
    · rintro ⟨-, last, rfl, ⟨left, middle, rfl, hregex, hfirst⟩, hsecond⟩
      refine ⟨left, middle ++ last, by simp, ?_, middle, last, rfl, hfirst, by simpa using hsecond⟩
      simpa using hregex

/-- Between the two anchors the pieces match the whole subject. -/
theorem textMatches_anchored_iff (hpieces : ∀ piece ∈ pieces, piece.isOrdinary = true)
    (subject : List Char) : TextMatches ('^' :: (piecesText pieces ++ ['$'])) subject ↔
    MatchesAll (pieces.map Piece.regex) [] subject [] := by
  have htext : '^' :: (piecesText pieces ++ ['$']) =
      piecesText (.start :: (pieces ++ [.finish])) := by
    simp [piecesText, Piece.text]
  have hall : ∀ piece ∈ Piece.start :: (pieces ++ [.finish]), piece.isOrdinary = true := by
    intro piece hpiece
    rw [mem_cons, mem_append, mem_singleton] at hpiece
    rcases hpiece with rfl | hpiece | rfl
    · rfl
    · exact hpieces piece hpiece
    · rfl
  rw [htext, textMatches_pieces_iff hall, map_cons, map_append]
  constructor
  · rintro ⟨before, text, behind, rfl, left, right, rfl, ⟨rfl, rfl⟩, hrest⟩
    obtain ⟨middle, last, rfl, hmiddle, hlast⟩ :=
      (matchesAll_append_iff _ _ _ _ _).mp hrest
    obtain ⟨left, right, rfl, ⟨rfl, hbehind⟩, rfl⟩ := hlast
    subst hbehind
    simpa using hmiddle
  · intro hmatches
    refine ⟨[], subject, [], by simp, [], subject, rfl, ⟨rfl, rfl⟩, ?_⟩
    rw [matchesAll_append_iff]
    refine ⟨subject, [], by simp, by simpa using hmatches, [], [], rfl, ⟨rfl, rfl⟩, rfl⟩

end Pieces

end PosixRegex
