/-
The condition for a regular expression.  Of a text between the two anchors
`lp_generate_where` makes an equality, and cuts the anchors off the literal that
the statement still holds: a plan made from the same statement again looks for
the text without anchors.
-/
import Mathlib.Data.List.TakeWhile
import Octo.GeneratePlan
import Octo.PosixRegex

namespace Octo

open PosixRegex List

/-- What the condition of a plan says of a subject. -/
def regexHolds (subject : List Char) : LogicalPlan → Prop
  | .node .booleanEquals _ (.value literal) =>
    subject = literal.stringLiteral.toList
  | .node .booleanRegexSensitive _ (.value literal) =>
    TextMatches literal.stringLiteral.toList subject
  | _ => False

/-- The text that is compared if the test of a literal becomes an equality. -/
def comparedText (literal : SqlValue) : Option (List Char) :=
  if literal.type = .stringLiteral ∨ literal.type = .numberLiteral then
    plainRegex literal.stringLiteral.toList
  else none

/-- The literal, as `lp_generate_where` leaves it. -/
def literalAfter (literal : SqlValue) : SqlValue :=
  match comparedText literal with
  | some text => { literal with stringLiteral := String.ofList text }
  | none => literal

/-- The statement, as `lp_generate_where` leaves it. -/
def statementAfter : SqlStatement → SqlStatement
  | .binary .booleanRegexSensitive subject (.value literal dataType) =>
    .binary .booleanRegexSensitive subject (.value (literalAfter literal) dataType)
  | statement => statement

theorem regexToEquals_value (operand : LogicalPlan) (literal : SqlValue) :
    regexToEquals operand (.value literal) = match comparedText literal with
      | some text => .node .booleanEquals operand
          (.value { literal with stringLiteral := String.ofList text })
      | none => .node .booleanRegexSensitive operand (.value literal) := by
  by_cases htype : literal.type = .stringLiteral ∨ literal.type = .numberLiteral <;>
    cases hplain : plainRegex literal.stringLiteral.toList <;>
    simp [regexToEquals, comparedText, htype, hplain]

section Plain

theorem plainRegex_eq_some_iff {pattern text : List Char} :
    plainRegex pattern = some text ↔ pattern = '^' :: (text ++ ['$']) ∧
        ∀ c ∈ text, c ≠ '$' ∧ c ∉ regexCharacters := by
  constructor
  · intro hplain
    unfold plainRegex at hplain
    split at hplain
    · rename_i rest
      dsimp only at hplain
      split_ifs at hplain with hrest
      cases hplain
      constructor
      · have hsplit := prefix_iff_eq_append.mp <| takeWhile_prefix (l := rest)
          fun c => c ≠ '$' && c ∉ regexCharacters
        rw [hrest] at hsplit
        rw [hsplit]
      · intro c hc
        simpa using mem_takeWhile_imp hc
    · cases hplain
  · rintro ⟨rfl, htext⟩
    have htake : (text ++ ['$']).takeWhile (fun c => c ≠ '$' && c ∉ regexCharacters) = text := by
      rw [takeWhile_append_of_pos]
      · simp
      · intro c hc
        simpa using htext c hc
    simp only [plainRegex, htake, drop_left, if_true]

variable {text : List Char}

/-- What a character of a plain text is for a regular expression. -/
def plainPiece (c : Char) : Piece :=
  if c = '^' then .start else .character c

theorem piecesText_plain (text : List Char) : piecesText (text.map plainPiece) = text := by
  induction text with
  | nil => rfl
  | cons c rest ih =>
    have hc : (plainPiece c).text = [c] := by
      unfold plainPiece
      split_ifs with hcaret
      · rw [hcaret]
        rfl
      · rfl
    rw [map_cons, piecesText, flatMap_cons, hc]
    rw [piecesText] at ih
    rw [ih]
    rfl

theorem isOrdinary_plain (htext : ∀ c ∈ text, c ≠ '$' ∧ c ∉ regexCharacters) :
    ∀ piece ∈ text.map plainPiece, piece.isOrdinary = true := by
  intro piece hpiece
  obtain ⟨c, hc, rfl⟩ := mem_map.mp hpiece
  have hplain := htext c hc
  unfold plainPiece
  split_ifs with hcaret
  · rfl
  · simp only [regexCharacters, mem_cons, not_mem_nil, or_false, not_or] at hplain
    simp [Piece.isOrdinary, specialCharacters, hplain, hcaret]

theorem isDirect_plain (htext : ∀ c ∈ text, c ≠ '$' ∧ c ∉ regexCharacters) :
    isDirect text = true := by
  simp only [isDirect, Bool.and_eq_true, decide_eq_true_eq]
  exact ⟨fun h => (htext _ h).2 (by decide), fun h => (htext _ h).2 (by decide)⟩

/-- Without anchors a text matches itself only. -/
theorem matchesAll_characters_iff (hcaret : '^' ∉ text) (before subject behind : List Char) :
    MatchesAll ((text.map plainPiece).map Piece.regex) before subject behind ↔ subject = text := by
  induction text generalizing before subject with
  | nil => rfl
  | cons c rest ih =>
    rw [mem_cons, not_or] at hcaret
    have hc : plainPiece c = .character c := if_neg (Ne.symm hcaret.1)
    simp only [map_cons, MatchesAll, hc, Piece.regex, Regex.Matches, ih hcaret.2]
    constructor
    · rintro ⟨left, right, rfl, ⟨d, rfl, hd⟩, rfl⟩
      rw [eq_of_beq hd]
      rfl
    · rintro rfl
      exact ⟨[c], rest, rfl, ⟨c, rfl, beq_self_eq_true c⟩, rfl⟩

def renameCaret (c : Char) : Char := if c = '^' then 'x' else c

theorem keepsOrdinary_renameCaret : KeepsOrdinary renameCaret := by
  intro c hc
  apply if_neg
  rintro rfl
  exact hc (by decide)

theorem map_renameCaret_ne (hcaret : '^' ∈ text) : text.map renameCaret ≠ text := by
  intro heq
  have hmem : '^' ∈ text.map renameCaret := by rwa [heq]
  obtain ⟨c, -, hc⟩ := mem_map.mp hmem
  unfold renameCaret at hc
  split_ifs at hc with h
  · simp at hc
  · exact h hc

/-- The anchored text matches itself only, exactly if no anchor is in it. -/
theorem textMatches_anchored_plain_iff (htext : ∀ c ∈ text, c ≠ '$' ∧ c ∉ regexCharacters) :
    (∀ subject, subject = text ↔ TextMatches ('^' :: (text ++ ['$'])) subject) ↔ '^' ∉ text := by
  constructor
  · intro hmatches hcaret
    have hdirect : isDirect ('^' :: (text ++ ['$'])) = true := by
      have := isDirect_plain htext
      simpa [isDirect] using this
    have hself := (hmatches text).mp rfl
    have hrenamed := hself.map keepsOrdinary_renameCaret hdirect
    exact map_renameCaret_ne hcaret ((hmatches _).mpr hrenamed)
  · intro hcaret subject
    have hanchored := textMatches_anchored_iff (isOrdinary_plain htext) subject
    rw [piecesText_plain, matchesAll_characters_iff hcaret] at hanchored
    exact hanchored.symm

/-- The text without its anchors matches more, or less, than itself. -/
theorem textMatches_plain_ne (htext : ∀ c ∈ text, c ≠ '$' ∧ c ∉ regexCharacters) :
    ¬ ∀ subject, TextMatches text subject ↔ subject = text := by
  intro hmatches
  by_cases hcaret : '^' ∈ text
  · have hrenamed := ((hmatches text).mpr rfl).map keepsOrdinary_renameCaret (isDirect_plain htext)
    exact map_renameCaret_ne hcaret ((hmatches _).mp hrenamed)
  · cases text with
    | nil =>
      obtain ⟨regex, hparse, -⟩ := (hmatches []).mpr rfl
      cases hparse
    | cons c rest =>
      have hlonger : TextMatches (c :: rest) (c :: rest ++ ['x']) := by
        have hiff := textMatches_pieces_iff (isOrdinary_plain htext) (c :: rest ++ ['x'])
        rw [← map_cons, piecesText_plain] at hiff
        apply hiff.mpr
        exact ⟨[], c :: rest, ['x'], rfl, (matchesAll_characters_iff hcaret _ _ _).mpr rfl⟩
      have heq := (hmatches _).mp hlonger
      simp at heq

end Plain

section Conditions

def literalCondition (operand : LogicalPlan) (literal : SqlValue) :
    LogicalPlan :=
  regexToEquals operand (.value literal)

theorem regexHolds_literalCondition (subject : List Char) (operand : LogicalPlan)
    (literal : SqlValue) : regexHolds subject (literalCondition operand literal) ↔
      match comparedText literal with
      | some text => subject = text
      | none => TextMatches literal.stringLiteral.toList subject := by
  rw [literalCondition, regexToEquals_value]
  cases comparedText literal with
  | none => rfl
  | some text => simp [regexHolds]

theorem comparedText_eq_some {literal : SqlValue} {text : List Char}
    (htext : comparedText literal = some text) : literal.stringLiteral.toList = '^' ::
    (text ++ ['$']) ∧ ∀ c ∈ text, c ≠ '$' ∧ c ∉ regexCharacters := by
  unfold comparedText at htext
  split_ifs at htext
  exact plainRegex_eq_some_iff.mp htext

/-- The literal that is left is not changed again. -/
theorem comparedText_literalAfter (literal : SqlValue) :
    comparedText (literalAfter literal) = none := by
  cases htext : comparedText literal with
  | none => rw [literalAfter, htext, htext]
  | some text =>
    obtain ⟨-, hplain⟩ := comparedText_eq_some htext
    cases hagain : comparedText (literalAfter literal) with
    | none => rfl
    | some rest =>
      obtain ⟨hrest, -⟩ := comparedText_eq_some hagain
      rw [literalAfter, htext, String.toList_ofList] at hrest
      have hdollar : '$' ∈ text := by simp [hrest]
      exact absurd rfl (hplain '$' hdollar).1

/-- The first condition is right if the text has no anchor in it. -/
theorem literalCondition_right_iff (operand : LogicalPlan) (literal : SqlValue) :
    (∀ subject, regexHolds subject (literalCondition operand literal) ↔
    TextMatches literal.stringLiteral.toList subject) ↔
    ∀ text ∈ comparedText literal, '^' ∉ text := by
  simp only [regexHolds_literalCondition]
  cases htext : comparedText literal with
  | none => simp
  | some text =>
    obtain ⟨hpattern, hplain⟩ := comparedText_eq_some htext
    rw [hpattern]
    simpa using textMatches_anchored_plain_iff hplain

/-- The second condition means the same only if nothing was changed. -/
theorem literalCondition_again_iff (operand operand' : LogicalPlan) (literal : SqlValue) :
    (∀ subject, regexHolds subject (literalCondition operand' (literalAfter literal)) ↔
    regexHolds subject (literalCondition operand literal)) ↔ comparedText literal = none := by
  simp only [regexHolds_literalCondition, comparedText_literalAfter]
  cases htext : comparedText literal with
  | none => simp [literalAfter, htext]
  | some text =>
    obtain ⟨-, hplain⟩ := comparedText_eq_some htext
    simp only [literalAfter, htext, String.toList_ofList, reduceCtorEq, iff_false]
    exact textMatches_plain_ne hplain

variable {tableOf : ℕ → SqlTable} {optimize : Optimizer}
  {generateOuter : SelectQuery → OptimizerState → Generated}

variable {subject : SqlStatement} {state later : OptimizerState} {operand : LogicalPlan}

theorem lpGenerateWhere_regex
    (hoperand : lpGenerateWhere tableOf optimize generateOuter subject state =
    some (operand, later)) (literal : SqlValue) (dataType : TableStatement.DataType) :
    lpGenerateWhere tableOf optimize generateOuter
    (.binary .booleanRegexSensitive subject (.value literal dataType))
    state = some (literalCondition operand literal, later) := by
  simp [lpGenerateWhere, hoperand, SqlStatement.isColumnList, binaryPlan, literalCondition]

/-- The plan of a test with a literal, and a plan of what the first one leaves
of the statement, mean that the subject matches exactly if the literal is not
changed.  The first plan alone does also if no anchor is within the text. -/
theorem regex_condition_iff {subject : SqlStatement} (literal : SqlValue)
    (dataType : TableStatement.DataType) {state later : OptimizerState} {operand : LogicalPlan}
    (hoperand : lpGenerateWhere tableOf optimize generateOuter subject state =
    some (operand, later)) {state' later' : OptimizerState} {operand' : LogicalPlan}
    (hoperand' : lpGenerateWhere tableOf optimize generateOuter subject
    state' = some (operand', later')) :
    ∃ first second, lpGenerateWhere tableOf optimize generateOuter
    (.binary .booleanRegexSensitive subject (.value literal dataType)) state = some (first, later) ∧
    lpGenerateWhere tableOf optimize generateOuter (statementAfter
    (.binary .booleanRegexSensitive subject (.value literal dataType)))
    state' = some (second, later') ∧ ((∀ text, regexHolds text first ↔
    TextMatches literal.stringLiteral.toList text) ↔ ∀ text ∈ comparedText literal, '^' ∉ text) ∧
    ((∀ text, (regexHolds text first ↔ TextMatches literal.stringLiteral.toList text) ∧
    (regexHolds text second ↔ regexHolds text first)) ↔ comparedText literal = none) := by
  have hright := literalCondition_right_iff operand literal
  have hagain := literalCondition_again_iff operand operand' literal
  refine ⟨literalCondition operand literal, literalCondition operand' (literalAfter literal),
    lpGenerateWhere_regex hoperand literal dataType,
    lpGenerateWhere_regex hoperand' (literalAfter literal) dataType, hright, ?_⟩
  rw [forall_and, hright, hagain]
  constructor
  · exact fun h => h.2
  · intro hnone
    exact ⟨by simp [hnone], hnone⟩

end Conditions

namespace RegexExample

def tableOf : ℕ → SqlTable := fun _ => ⟨"t", [⟨"id"⟩], [⟨"id"⟩], idColumn_ne_nil⟩

def optimize : Optimizer := fun plan state => some (plan, state)

def generateOuter : SelectQuery → OptimizerState → Generated :=
  fun _ _ => none

def string (text : String) : SqlValue := ⟨.stringLiteral, text⟩

/-- `'abc' ~ pattern` -/
def statement (pattern : String) : SqlStatement :=
  .binary .booleanRegexSensitive (.value (string "abc") .unknown) (.value (string pattern) .unknown)

def generate (statement : SqlStatement) : Generated :=
  lpGenerateWhere tableOf optimize generateOuter statement ⟨0, 0⟩

theorem generate_subject : generate (.value (string "abc") .unknown) =
      some (.value (string "abc"), ⟨0, 0⟩) := by
  simp [generate, lpGenerateWhere]

end RegexExample

open RegexExample in
theorem regex_condition_dot : ∃ first second, generate (statement "a.c") = some (first, ⟨0, 0⟩) ∧
    generate (statementAfter (statement "a.c")) = some (second, ⟨0, 0⟩) ∧
    ∀ text, (regexHolds text first ↔ TextMatches "a.c".toList text) ∧
    (regexHolds text second ↔ regexHolds text first) := by
  obtain ⟨first, second, hfirst, hsecond, -, hiff⟩ := regex_condition_iff
    (string "a.c") .unknown generate_subject generate_subject
  have hnone : comparedText (string "a.c") = none := by
    decide +kernel
  exact ⟨first, second, hfirst, hsecond, hiff.mpr hnone⟩

open RegexExample in
/-- A second plan for `'^abc$'` finds abc within a text, and `'^^a$'` does not
match a. -/
theorem regex_condition_differs : (∃ first second,
      generate (statement "^abc$") = some (first, ⟨0, 0⟩) ∧
      generate (statementAfter (statement "^abc$")) = some (second, ⟨0, 0⟩) ∧
      ¬ regexHolds "xabc".toList first ∧ regexHolds "xabc".toList second) ∧
    ∃ first, generate (statement "^^a$") = some (first, ⟨0, 0⟩) ∧
      TextMatches "^^a$".toList "a".toList ∧ ¬ regexHolds "a".toList first := by
  refine ⟨⟨_, _, lpGenerateWhere_regex generate_subject _ _,
    lpGenerateWhere_regex generate_subject _ _, ?_, ?_⟩,
    ⟨_, lpGenerateWhere_regex generate_subject _ _, ?_, ?_⟩⟩
  · have htext : comparedText (string "^abc$") = some "abc".toList := by
      decide +kernel
    rw [regexHolds_literalCondition, htext]
    decide
  · have habc : TextMatches "abc".toList "xabc".toList :=
      ⟨_, rfl, ['x'], ['a', 'b', 'c'], [], rfl, ['a'], ['b', 'c'], rfl,
        ⟨'a', rfl, rfl⟩, ['b'], ['c'], rfl, ⟨'b', rfl, rfl⟩, 'c', rfl, rfl⟩
    exact habc
  · exact ⟨_, rfl, [], ['a'], [], rfl, [], ['a'], rfl, ⟨rfl, rfl⟩, [], ['a'],
      rfl, ⟨rfl, rfl⟩, ['a'], [], rfl, ⟨'a', rfl, rfl⟩, rfl, rfl⟩
  · have htext : comparedText (string "^^a$") = some "^a".toList := by
      decide +kernel
    rw [regexHolds_literalCondition, htext]
    decide

end Octo
