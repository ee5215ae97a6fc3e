/-
LIKE.  `regex_to_like` makes a regular expression of a pattern.  It copies
characters that mean something else in a regular expression, and looks at the
end of the buffer only before a character is written.
-/
import Octo.ExpressionText
import Octo.PosixRegex
import Octo.SqlStatement
import Octo.StringLiteral

namespace Octo

open PosixRegex List

/-- The subject matches the pattern: a percent sign stands for any text, an
underscore for any character, and all others for themselves. -/
def like : List Char → List Char → Bool
  | [], subject => subject.isEmpty
  | c :: pattern, subject =>
    if c = '%' then subject.tails.any (like pattern)
    else
      match subject with
      | [] => false
      | d :: rest => (c = '_' || c = d) && like pattern rest

def likeCharacters (c : Char) : List Char :=
  if c = '%' then ['.', '*']
  else if c = '_' then ['.']
  else [c]

/-- The loop, from the position `d` of a buffer of `size` bytes on; none if it
writes behind the buffer. -/
def likeLoop (size : ℕ) : ℕ → List Char → Option (List Char)
  | d, [] => if d + 2 ≤ size then some ['$'] else none
  | d, c :: rest =>
    if d < size ∧ d + byteSize (likeCharacters c) ≤ size then
      (likeLoop size (d + byteSize (likeCharacters c)) rest).map (likeCharacters c ++ ·)
    -- The loop ends at the end of the buffer, and the $ comes behind it.
    else none

def regexToLike (src : List Char) : Option (List Char) :=
  (likeLoop maxStrConst 1 src).map ('^' :: ·)

/-- `row_value_constructor LIKE row_value_constructor`.  The text of any value
is changed, also that of a name; there is none behind a NULL. -/
def likePredicate (operand0 : SqlStatement) : SqlStatement → Option SqlStatement
  | .value literal dataType =>
    if literal.type = .nulValue then none
    else do
      let text ← regexToLike literal.stringLiteral.toList
      some (.binary .booleanRegexSensitive operand0
        (.value { literal with stringLiteral := String.ofList text } dataType))
  | .name text dataType => do
    let text ← regexToLike text.toList
    some (.binary .booleanRegexSensitive operand0 (.name (String.ofList text) dataType))
  | _ => none

/-- `row_value_constructor NOT LIKE row_value_constructor` -/
def notLikePredicate (operand0 operand1 : SqlStatement) : Option SqlStatement :=
  (likePredicate operand0 operand1).map (.unary .booleanNot ·)

section Loop

theorem utf8Size_likeCharacters_pos (c : Char) : 0 < byteSize (likeCharacters c) := by
  unfold likeCharacters
  split_ifs
  · decide
  · decide
  · simpa [byteSize] using c.utf8Size_pos

theorem length_le_byteSize (pattern : List Char) :
    pattern.length ≤ byteSize (pattern.flatMap likeCharacters) := by
  induction pattern with
  | nil => exact Nat.zero_le _
  | cons c pattern ih =>
    have hpos := utf8Size_likeCharacters_pos c
    rw [flatMap_cons, byteSize_append, length_cons]
    omega

theorem likeLoop_eq (size d : ℕ) (src : List Char) : likeLoop size d src =
      if d + byteSize (src.flatMap likeCharacters) + 2 ≤ size then
        some (src.flatMap likeCharacters ++ ['$'])
      else none := by
  induction src generalizing d with
  | nil => simp [likeLoop, byteSize]
  | cons c rest ih =>
    rw [likeLoop, ih, flatMap_cons, byteSize_append]
    by_cases hfits : d + (byteSize (likeCharacters c) +
        byteSize (rest.flatMap likeCharacters)) + 2 ≤ size
    · rw [if_pos (by omega), if_pos (by omega), if_pos hfits]
      simp
    · rw [if_neg hfits]
      split_ifs with hroom hrest
      · omega
      · rfl
      · rfl

/-- The expression, if it fits into the buffer with its anchors and the NUL. -/
theorem regexToLike_eq (src : List Char) : regexToLike src =
      if byteSize (src.flatMap likeCharacters) + 3 ≤ maxStrConst then
        some ('^' :: (src.flatMap likeCharacters ++ ['$']))
      else none := by
  rw [regexToLike, likeLoop_eq]
  by_cases hfits : byteSize (src.flatMap likeCharacters) + 3 ≤ maxStrConst
  · rw [if_pos (by omega), if_pos hfits]
    rfl
  · rw [if_neg (by omega), if_neg hfits]
    rfl

end Loop

section Matching

variable {pattern : List Char}

/-- No character of the pattern is special in a regular expression. -/
def isPlainPattern (pattern : List Char) : Bool :=
  pattern.all (· ∉ specialCharacters)

def likePiece (c : Char) : Piece :=
  if c = '%' then .anyText
  else if c = '_' then .any
  else .character c

theorem piecesText_like (pattern : List Char) :
    piecesText (pattern.map likePiece) = pattern.flatMap likeCharacters := by
  rw [piecesText, flatMap_map]
  apply flatMap_congr
  intro c _
  unfold likePiece likeCharacters
  split_ifs <;> rfl

theorem isOrdinary_like (hplain : isPlainPattern pattern = true) :
    ∀ piece ∈ pattern.map likePiece, piece.isOrdinary = true := by
  intro piece hpiece
  obtain ⟨c, hc, rfl⟩ := mem_map.mp hpiece
  have hordinary := all_eq_true.mp hplain c hc
  unfold likePiece
  split_ifs
  · rfl
  · rfl
  · exact hordinary

theorem iterated_any (before text behind : List Char) :
    Iterated (Regex.one fun _ => true).Matches text.length before text
      behind := by
  induction text generalizing before with
  | nil => rfl
  | cons c rest ih =>
    exact ⟨[c], rest, rfl, ⟨c, rfl, rfl⟩, ih (before ++ [c])⟩

/-- Any text is matched by the piece for a percent sign. -/
theorem matches_anyText (before text behind : List Char) :
    Piece.anyText.regex.Matches before text behind :=
  ⟨text.length, Nat.zero_le _, nofun, iterated_any before text behind⟩

theorem like_percent (pattern subject : List Char) :
    like ('%' :: pattern) subject = subject.tails.any (like pattern) := by
  simp [like]

theorem like_cons {c : Char} (hc : c ≠ '%') (pattern subject : List Char) :
    like (c :: pattern) subject = true ↔ ∃ d rest, subject = d :: rest ∧ (c = '_' ∨ c = d) ∧
    like pattern rest = true := by
  cases subject with
  | nil => simp [like, hc]
  | cons d rest => simp [like, hc]

theorem matches_likePiece_iff {c : Char} (hc : c ≠ '%') (before left behind : List Char) :
    (likePiece c).regex.Matches before left behind ↔ ∃ d, left = [d] ∧ (c = '_' ∨ c = d) := by
  unfold likePiece
  rw [if_neg hc]
  split_ifs with hunderscore
  · simp [Piece.regex, Regex.Matches, hunderscore]
  · simp only [Piece.regex, Regex.Matches, hunderscore, false_or, beq_iff_eq]
    simp only [eq_comm]

theorem matchesAll_like_iff (pattern before subject behind : List Char) :
    MatchesAll ((pattern.map likePiece).map Piece.regex) before subject
      behind ↔ like pattern subject = true := by
  induction pattern generalizing before subject with
  | nil => simp [MatchesAll, like]
  | cons c pattern ih =>
    simp only [map_cons, MatchesAll, ih]
    by_cases hpercent : c = '%'
    · subst hpercent
      rw [like_percent, any_eq_true]
      constructor
      · rintro ⟨left, right, rfl, -, hlike⟩
        exact ⟨right, (mem_tails _ _).mpr (suffix_append left right), hlike⟩
      · rintro ⟨right, hright, hlike⟩
        obtain ⟨left, rfl⟩ := (mem_tails _ _).mp hright
        exact ⟨left, right, rfl, matches_anyText _ _ _, hlike⟩
    · simp only [matches_likePiece_iff hpercent]
      rw [like_cons hpercent]
      constructor
      · rintro ⟨left, right, rfl, ⟨d, rfl, hd⟩, hlike⟩
        exact ⟨d, right, rfl, hd, hlike⟩
      · rintro ⟨d, rest, rfl, hd, hlike⟩
        exact ⟨[d], rest, rfl, ⟨d, rfl, hd⟩, hlike⟩

end Matching

section Special

variable {pattern subject : List Char}

theorem like_self (pattern : List Char) : like pattern pattern = true := by
  induction pattern with
  | nil => rfl
  | cons c pattern ih =>
    by_cases hpercent : c = '%'
    · subst hpercent
      rw [like_percent, any_eq_true]
      exact ⟨pattern, (mem_tails _ _).mpr (suffix_cons _ _), ih⟩
    · rw [like_cons hpercent]
      exact ⟨c, pattern, rfl, .inr rfl, ih⟩

/-- What is not a wildcard occurs in every subject. -/
theorem mem_of_like {c : Char} (hpercent : c ≠ '%') (hunderscore : c ≠ '_') (hc : c ∈ pattern)
    (hlike : like pattern subject = true) : c ∈ subject := by
  induction pattern generalizing subject with
  | nil => simp at hc
  | cons first pattern ih =>
    by_cases hfirst : first = '%'
    · subst hfirst
      have hc : c ∈ pattern := by simpa [hpercent] using hc
      rw [like_percent, any_eq_true] at hlike
      obtain ⟨rest, hrest, hlike⟩ := hlike
      exact ((mem_tails _ _).mp hrest).mem (ih hc hlike)
    · obtain ⟨d, rest, rfl, hd, hlike⟩ := (like_cons hfirst _ _).mp hlike
      rcases mem_cons.mp hc with rfl | hc
      · obtain rfl := hd.resolve_left hunderscore
        exact mem_cons_self
      · exact mem_cons_of_mem d (ih hc hlike)

/-- Every special character becomes a letter. -/
def maskSpecial (c : Char) : Char :=
  if c ∈ specialCharacters then 'x' else c

theorem maskSpecial_keepsOrdinary : KeepsOrdinary maskSpecial :=
  fun _ hc => if_neg hc

theorem mem_of_mem_likeCharacters {bracket : Char} (hdot : bracket ≠ '.') (hstar : bracket ≠ '*')
    (hmem : bracket ∈ pattern.flatMap likeCharacters) : bracket ∈ pattern := by
  obtain ⟨c, hc, hmem⟩ := mem_flatMap.mp hmem
  unfold likeCharacters at hmem
  split_ifs at hmem
  · simp [hdot, hstar] at hmem
  · simp [hdot] at hmem
  · rwa [mem_singleton.mp hmem]

theorem isDirect_like (hdirect : isDirect pattern = true) :
    isDirect ('^' :: (pattern.flatMap likeCharacters ++ ['$'])) = true := by
  simp only [isDirect, Bool.and_eq_true, decide_eq_true_eq] at hdirect ⊢
  refine ⟨fun hmem => hdirect.1 ?_, fun hmem => hdirect.2 ?_⟩
  all_goals
    refine mem_of_mem_likeCharacters ?_ ?_ ?_
    · decide
    · decide
    · simpa using hmem

/-- A special character outside of brackets and without a backslash does not
stand for itself: the pattern is like itself, and if its expression matches
it, it also matches the pattern with letters in place of these characters. -/
theorem exists_not_like (hdirect : isDirect pattern = true)
    (hspecial : isPlainPattern pattern = false) : ∃ subject, ¬(TextMatches
    ('^' :: (pattern.flatMap likeCharacters ++ ['$'])) subject ↔ like pattern subject = true) := by
  by_contra hsame
  simp only [not_exists, not_not] at hsame
  obtain ⟨c, hc, hmem⟩ : ∃ c ∈ pattern, c ∈ specialCharacters := by
    simpa [isPlainPattern] using hspecial
  have hmasked : like pattern (pattern.map maskSpecial) = true := by
    rw [← hsame]
    apply TextMatches.map maskSpecial_keepsOrdinary (isDirect_like hdirect)
    rw [hsame]
    exact like_self pattern
  have hoccurs : c ∈ pattern.map maskSpecial := by
    refine mem_of_like ?_ ?_ hc hmasked
    all_goals
      rintro rfl
      revert hmem
      decide
  obtain ⟨d, -, rfl⟩ := mem_map.mp hoccurs
  revert hmem
  unfold maskSpecial
  split_ifs with hd
  · decide
  · exact hd

end Special

section Predicate

variable {operand0 operand1 : SqlStatement} {pattern : List Char}

/-- LIKE becomes a comparison with a regular expression that is written into
the buffer and matches what is like the pattern; NOT LIKE becomes the negation
of the same comparison. -/
def BuildsLike (operand0 operand1 : SqlStatement) (pattern : List Char) :
    Prop :=
  ∃ literal dataType regex, likePredicate operand0 operand1 =
      some (.binary .booleanRegexSensitive operand0 (.value literal dataType)) ∧
    notLikePredicate operand0 operand1 =
      some (.unary .booleanNot (.binary .booleanRegexSensitive operand0
        (.value literal dataType))) ∧
    literalText literal = some regex ∧
    ∀ subject, TextMatches regex subject ↔ like pattern subject = true

/-- The second operand is a literal with this text. -/
def IsPattern (operand1 : SqlStatement) (pattern : List Char) : Prop :=
  ∃ literal dataType, operand1 = .value literal dataType ∧
    literal.type ≠ .nulValue ∧ literalText literal = some pattern

/-- It fits into the buffer, and nothing in it is special. -/
def LikeFits (pattern : List Char) : Prop :=
  byteSize (pattern.flatMap likeCharacters) + 3 ≤ maxStrConst ∧ isPlainPattern pattern = true

theorem literalText_eq_text {literal : SqlValue} {text : List Char}
    (hnull : literal.type ≠ .nulValue) (htext : literalText literal = some text) :
    literal.stringLiteral.toList = text := by
  unfold literalText at htext
  split at htext <;> simp_all

/-- The statement that is built keeps the type of the literal. -/
theorem likePredicate_eq_value_iff {built : SqlValue} {dataType : TableStatement.DataType} :
    likePredicate operand0 operand1 =
    some (.binary .booleanRegexSensitive operand0 (.value built dataType)) ↔
    ∃ literal, operand1 = .value literal dataType ∧ literal.type ≠ .nulValue ∧
    ∃ text, regexToLike literal.stringLiteral.toList = some text ∧
    built = { literal with stringLiteral := String.ofList text } := by
  constructor
  · intro hbuilt
    unfold likePredicate at hbuilt
    split at hbuilt
    · next literal _ =>
        split_ifs at hbuilt with hnull
        obtain ⟨text, htext, hbuilt⟩ := Option.bind_eq_some_iff.mp hbuilt
        obtain ⟨rfl, rfl⟩ := hbuilt
        exact ⟨literal, rfl, hnull, text, htext, rfl⟩
    · obtain ⟨text, htext, hbuilt⟩ := Option.bind_eq_some_iff.mp hbuilt
      simp at hbuilt
    · simp at hbuilt
  · rintro ⟨literal, rfl, hnull, text, htext, rfl⟩
    simp [likePredicate, hnull, htext]

theorem literalText_with {literal : SqlValue} {text regex : List Char}
    (hnull : literal.type ≠ .nulValue) (htext : literalText literal = some text) :
    literalText { literal with stringLiteral := String.ofList regex } = some regex := by
  unfold literalText at htext ⊢
  split at htext <;> simp_all

/-- A literal pattern is translated if its expression fits into the buffer
and none of its characters is special.  Another pattern is not translated, and
without brackets and backslashes a special character is taken for itself
nowhere. -/
theorem buildsLike_of_likeFits
    (hvalue : ∀ literal dataType text, operand1 = .value literal dataType →
    literalText literal = some text → pattern = text) :
    (IsPattern operand1 pattern ∧ LikeFits pattern → BuildsLike operand0 operand1 pattern) ∧
    (BuildsLike operand0 operand1 pattern → IsPattern operand1 pattern ∧
    byteSize (pattern.flatMap likeCharacters) + 3 ≤ maxStrConst ∧
    (isDirect pattern = true → isPlainPattern pattern = true)) := by
  constructor
  · rintro ⟨⟨literal, dataType, rfl, hnull, htext⟩, hsize, hplain⟩
    have hregex : regexToLike literal.stringLiteral.toList =
        some ('^' :: (pattern.flatMap likeCharacters ++ ['$'])) := by
      rw [literalText_eq_text hnull htext, regexToLike_eq, if_pos hsize]
    have hlike : likePredicate operand0 (.value literal dataType) = some _ :=
      likePredicate_eq_value_iff.mpr ⟨literal, rfl, hnull, _, hregex, rfl⟩
    refine ⟨_, dataType, _, hlike, ?_, literalText_with hnull htext, fun subject => ?_⟩
    · rw [notLikePredicate, hlike, Option.map_some]
    · rw [← piecesText_like, textMatches_anchored_iff (isOrdinary_like hplain), matchesAll_like_iff]
  · rintro ⟨built, dataType, regex, hbuilt, -, hregex, hsame⟩
    obtain ⟨literal, rfl, hnull, text, htext, rfl⟩ :=
      likePredicate_eq_value_iff.mp hbuilt
    obtain ⟨original, horiginal⟩ : ∃ original, literalText literal = some original := by
      unfold literalText at hregex ⊢
      split at hregex <;> simp_all
    obtain rfl := hvalue literal dataType original rfl horiginal
    rw [literalText_with hnull horiginal] at hregex
    cases hregex
    rw [literalText_eq_text hnull horiginal, regexToLike_eq] at htext
    split_ifs at htext with hsize
    cases htext
    refine ⟨⟨literal, dataType, rfl, hnull, horiginal⟩, hsize, ?_⟩
    intro hdirect
    by_contra hplain
    obtain ⟨subject, hsubject⟩ :=
      exists_not_like hdirect (Bool.eq_false_iff.mpr hplain)
    exact hsubject (hsame subject)

end Predicate

section LikeExample

/-- `name LIKE 'A%'` -/
def likeLiteral (text : String) : SqlStatement :=
  .value ⟨.stringLiteral, text⟩ .characterStringType

def likeSubject : SqlStatement :=
  .name "name" .characterStringType

theorem buildsLike_initial : BuildsLike likeSubject (likeLiteral "A%") "A%".toList := by
  refine (buildsLike_of_likeFits ?_).1 ⟨?_, ?_⟩
  · intro literal dataType text hliteral htext
    cases hliteral
    simpa [literalText] using htext
  · exact ⟨⟨.stringLiteral, "A%"⟩, .characterStringType, rfl, nofun, rfl⟩
  · constructor
    · decide
    · decide

/-- `LIKE 'a.c'` finds abc, a pattern can be too long for the buffer, and the
name of a column is turned into a regular expression. -/
theorem like_finds_other_text : (∃ regex, likePredicate likeSubject (likeLiteral "a.c") =
    some (.binary .booleanRegexSensitive likeSubject (likeLiteral (String.ofList regex))) ∧
    TextMatches regex "abc".toList ∧ like "a.c".toList "abc".toList = false) ∧
    (∀ text : String, 32766 ≤ text.length → likePredicate likeSubject (likeLiteral text) = none) ∧
    likePredicate likeSubject (.name "pattern" .characterStringType) =
    some (.binary .booleanRegexSensitive likeSubject (.name "^pattern$" .characterStringType)) := by
  refine ⟨⟨['^', 'a', '.', 'c', '$'], ?_, ?_, ?_⟩, ?_, ?_⟩
  · decide +kernel
  · exact ⟨_, rfl, [], ['a', 'b', 'c'], [], rfl, [], _, rfl, ⟨rfl, rfl⟩,
      ['a'], _, rfl, ⟨'a', rfl, rfl⟩, ['b'], _, rfl, ⟨'b', rfl, rfl⟩,
      ['c'], _, rfl, ⟨'c', rfl, rfl⟩, rfl, rfl⟩
  · decide
  · intro text hlength
    have hsize := length_le_byteSize text.toList
    rw [String.length_toList] at hsize
    have hnone : regexToLike text.toList = none := by
      rw [regexToLike_eq, if_neg]
      have hmax : maxStrConst = 32768 := rfl
      omega
    simp [likePredicate, likeLiteral, hnone]
  · decide +kernel

end LikeExample

end Octo
