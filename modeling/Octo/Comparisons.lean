/-
The comparisons of the emitted code.  < and > on strings use the sorts-after
operator, <= and >= always compare numbers, and = always compares texts, so
the five comparisons of two operands fit together for some values only.
-/
import Octo.ExpressionText
import Octo.MValue

namespace Octo

open MExpression MValue

/-- The emitted condition, as IF sees it. -/
def emittedCondition (refs : References) (ops : Operators (Option (List Char)))
    (type : LPActionType) (first second : LogicalPlan) : Option Bool := do
  let text ← tmplPrintExpression refs (.node type first second)
  let value ← (← evalText ops text)
  some (isTrueText value)

/-- The texts of two operands are expressions of M, and atoms where they stand
behind the operator.  For the sorts-after operator each of them may. -/
structure PrintsOperands (refs : References) (first second : LogicalPlan) (left right : Expr) :
    Prop where
  leftText : tmplPrintExpression refs first = some left.render
  rightText : tmplPrintExpression refs second = some right.render
  leftWellFormed : left.wellFormed = true
  rightWellFormed : right.wellFormed = true
  leftAtom : usesStringComparison refs first = some true → left.isAtom = true
  rightAtom : right.isAtom = true

/-- Exactly one of <, = and > is emitted as a true condition, and <= and >= as
the complements of > and <. -/
def ComparisonsAgree (refs : References) (ops : Operators (Option (List Char)))
    (first second : LogicalPlan) : Prop :=
  ∃ less equal greater : Bool,
    emittedCondition refs ops .booleanLessThan first second = some less ∧
    emittedCondition refs ops .booleanEquals first second = some equal ∧
    emittedCondition refs ops .booleanGreaterThan first second = some greater ∧
    [less, equal, greater].count true = 1 ∧
    emittedCondition refs ops .booleanLessThanOrEquals first second = some !greater ∧
    emittedCondition refs ops .booleanGreaterThanOrEquals first second = some !less

section Emitted

variable {refs : References} (ops : Operators (Option (List Char)))
  {first second : LogicalPlan} {left right : Expr}

theorem evalText_printBinary (op : BinaryOp) (hleft : left.wellFormed = true)
    (hright : right.wellFormed = true) (hatom : right.isAtom = true) :
    evalText ops (printBinary op left.render right.render) =
    some (ops.binary op (left.eval ops) (right.eval ops)) := by
  have htext : printBinary op left.render right.render =
      (Expr.paren (.binary op left right)).render := by
    simp [printBinary, Expr.render]
  have hexpr : (Expr.paren (.binary op left right)).wellFormed = true := by
    simp [Expr.wellFormed, hleft, hright, hatom]
  rw [htext, evalText_render ops hexpr]
  rfl

variable {type : LPActionType}

theorem emittedCondition_fixed {op : BinaryOp}
    (hoperands : PrintsOperands refs first second left right) (hnot : unaryOperator type = none)
    (hop : binaryOperator type = some op) : emittedCondition refs ops type first second =
    (ops.binary op (left.eval ops) (right.eval ops)).map isTrueText := by
  have htext : tmplPrintExpression refs (.node type first second) =
      some (printBinary op left.render right.render) := by
    rw [tmplPrintExpression, printNode, hnot, hop]
    simp [hoperands.leftText, hoperands.rightText]
  simp [emittedCondition, htext, evalText_printBinary ops op hoperands.leftWellFormed
    hoperands.rightWellFormed hoperands.rightAtom, Option.map_eq_bind]

/-- < and > are emitted if the type of the left operand is found. -/
theorem emittedCondition_comparison {op : BinaryOp}
    (hoperands : PrintsOperands refs first second left right)
    (hop : comparisonOperator type = some op) : emittedCondition refs ops type first second =
    (usesStringComparison refs first).bind fun strings =>
      (if strings then
          if type = LPActionType.booleanLessThan then
            ops.binary .follows (right.eval ops) (left.eval ops)
          else ops.binary .follows (left.eval ops) (right.eval ops)
        else ops.binary op (left.eval ops) (right.eval ops)).map isTrueText := by
  have hnone : unaryOperator type = none ∧ binaryOperator type = none := by
    cases type <;> first
      | exact ⟨rfl, rfl⟩
      | simp [comparisonOperator] at hop
  have htext : tmplPrintExpression refs (.node type first second) =
      printComparison refs (.node type first second) op left.render
        right.render := by
    rw [tmplPrintExpression, printNode, hnone.1, hnone.2, hop]
    simp [hoperands.leftText, hoperands.rightText]
  have hsecond : second ≠ .null := by
    rintro rfl
    have hnull := hoperands.rightText
    simp [tmplPrintExpression] at hnull
  rw [emittedCondition, htext, printComparison, usesStringComparison, leftLeaf,
    if_neg hsecond, ← usesStringComparison]
  cases hstrings : usesStringComparison refs first with
  | none => rfl
  | some strings =>
    cases strings with
    | false =>
      simp [evalText_printBinary ops op hoperands.leftWellFormed hoperands.rightWellFormed
        hoperands.rightAtom, Option.map_eq_bind]
    | true =>
      by_cases hless : type = .booleanLessThan
      · simp [LogicalPlan.type, hless, evalText_printBinary ops .follows hoperands.rightWellFormed
          hoperands.leftWellFormed (hoperands.leftAtom hstrings), Option.map_eq_bind]
      · simp [LogicalPlan.type, hless, evalText_printBinary ops .follows hoperands.leftWellFormed
          hoperands.rightWellFormed hoperands.rightAtom, Option.map_eq_bind]

end Emitted

/-- Numbers that are equal are the same text. -/
def NumbersAgree (first second : List Char) : Prop :=
  number first = number second → first = second

/-- Texts sort as their numbers do. -/
def StringsAgree (first second : List Char) : Prop :=
  (sortsAfter first second = true ↔ number second < number first) ∧
    (sortsAfter second first = true ↔ number first < number second)

theorem count_numbers_iff (first second : List Char) :
    [decide (number first < number second), decide (first = second),
      decide (number second < number first)].count true = 1 ↔
      NumbersAgree first second := by
  unfold NumbersAgree
  rcases lt_trichotomy (number first) (number second) with hlt | heq | hlt
  · have hne : first ≠ second := by
      rintro rfl
      exact lt_irrefl _ hlt
    simp [hlt, hlt.not_gt, hne, hlt.ne]
  · by_cases hsame : first = second
    · simp [hsame]
    · simp [heq, hsame]
  · have hne : first ≠ second := by
      rintro rfl
      exact lt_irrefl _ hlt
    simp [hlt, hlt.not_gt, hne, hlt.ne']

theorem count_strings (first second : List Char) : [sortsAfter second first,
    decide (first = second), sortsAfter first second].count true = 1 := by
  by_cases hsame : first = second
  · simp [hsame, sortsAfter_irrefl]
  · rcases sortsAfter_or_eq first second with hafter | heq | hafter
    · simp [hafter, sortsAfter_asymm hafter, hsame]
    · exact absurd heq hsame
    · simp [hafter, sortsAfter_asymm hafter, hsame]

theorem notGreater_eq_not_sortsAfter_iff (first second : List Char) :
    (decide (number first ≤ number second) = !sortsAfter first second) ↔
      (sortsAfter first second = true ↔ number second < number first) := by
  cases sortsAfter first second with
  | false => simp
  | true => simp

/-- The emitted comparisons of two operands agree exactly if the type of the
left one is found, their numbers are in range and either numbers are compared
and equal ones are the same text, or strings are and they sort as their numbers
do. -/
theorem comparisonsAgree_iff (refs : References) (other : Operators (List Char))
    (first second : LogicalPlan) (left right : Expr)
    (hoperands : PrintsOperands refs first second left right) :
    ComparisonsAgree refs (checkedComparisons other) first second ↔
      ∃ a b, left.eval (checkedComparisons other) = some a ∧
        right.eval (checkedComparisons other) = some b ∧ inRange a = true ∧ inRange b = true ∧
        (usesStringComparison refs first = some false ∧ NumbersAgree a b ∨
          usesStringComparison refs first = some true ∧ StringsAgree a b) := by
  have hless := emittedCondition_comparison (checkedComparisons other) hoperands
    (rfl : comparisonOperator .booleanLessThan = some .less)
  have hgreater := emittedCondition_comparison (checkedComparisons other) hoperands
    (rfl : comparisonOperator .booleanGreaterThan = some .greater)
  have hequal := emittedCondition_fixed (checkedComparisons other) hoperands
    rfl (rfl : binaryOperator .booleanEquals = some .equals)
  have hnotGreater := emittedCondition_fixed (checkedComparisons other) hoperands
    rfl (rfl : binaryOperator .booleanLessThanOrEquals = some .notGreater)
  have hnotLess := emittedCondition_fixed (checkedComparisons other) hoperands
    rfl (rfl : binaryOperator .booleanGreaterThanOrEquals = some .notLess)
  simp only [ComparisonsAgree, hless, hequal, hgreater, hnotGreater, hnotLess]
  generalize left.eval (checkedComparisons other) = a
  generalize right.eval (checkedComparisons other) = b
  cases a with
  | none => simp [checkedComparisons]
  | some a =>
    cases b with
    | none => simp [checkedComparisons]
    | some b =>
      -- <= compares numbers, whatever the operands are.
      by_cases hrange : inRange a = true ∧ inRange b = true
      · cases usesStringComparison refs first with
        | none => simp
        | some strings =>
          cases strings with
          | false =>
            have hcount := count_numbers_iff a b
            simp only [checkedComparisons, withComparisons]
            simp [hrange, ← hcount, ← decide_not]
          | true =>
            have hcount := count_strings a b
            simp [checkedComparisons, withComparisons, hrange, hcount, StringsAgree,
              notGreater_eq_not_sortsAfter_iff]
      · constructor
        · rintro ⟨less, equal, greater, -, -, -, -, hnot, -⟩
          simp [checkedComparisons, hrange] at hnot
        · rintro ⟨_, _, ⟨⟩, ⟨⟩, ha, hb, -⟩
          exact absurd ⟨ha, hb⟩ hrange

namespace ComparisonsWitness

/-- A table whose only column is its INTEGER key. -/
def refs : References where
  column _ := .reference "^cursor(cursorId,\"keys\",0)".toList
  columnIsString _ := false
  key _ := "^cursor(cursorId,\"keys\",0)".toList

def id : LogicalPlan :=
  .columnAlias ⟨⟨⟨"items", [⟨"id"⟩], [⟨"id"⟩], idColumn_ne_nil⟩, 0⟩, ⟨"id"⟩⟩

def numeral (text : String) : LogicalPlan := .value ⟨.numberLiteral, text⟩

def string (text : String) : LogicalPlan := .value ⟨.stringLiteral, text⟩

/-- Literals stand for themselves and the key is 7. -/
def ops : Operators (Option (List Char)) :=
  checkedComparisons
    { literal := fun text => text
      reference := fun _ => ['7']
      unary := fun _ value => value
      binary := fun _ first _ => first }

end ComparisonsWitness

open ComparisonsWitness in
/-- None of `1.0 < 1`, `1.0 = 1` and `1.0 > 1` is true, `'b' > 'a'` and
`'b' <= 'a'` both are, and for `-id < 3` there is no condition. -/
theorem comparisons_do_not_agree :
    (emittedCondition refs ops .booleanLessThan (numeral "1.0") (numeral "1") = some false ∧
    emittedCondition refs ops .booleanEquals (numeral "1.0") (numeral "1") = some false ∧
    emittedCondition refs ops .booleanGreaterThan (numeral "1.0") (numeral "1") = some false) ∧
    (emittedCondition refs ops .booleanGreaterThan (string "b") (string "a") = some true ∧
    emittedCondition refs ops .booleanLessThanOrEquals (string "b") (string "a") = some true) ∧
    emittedCondition refs ops .booleanLessThan (.node .negative id .null) (numeral "3") = none := by
  decide +kernel

open ComparisonsWitness in
theorem key_and_numeral_agree : ComparisonsAgree refs ops id (numeral "12") := by
  have hoperands : PrintsOperands refs id (numeral "12") (refs.column ⟨_, ⟨"id"⟩⟩)
      (.literal "12".toList) :=
    ⟨rfl, rfl, by decide, by decide, nofun, rfl⟩
  apply (comparisonsAgree_iff refs _ id (numeral "12") _ _ hoperands).mpr
  refine ⟨['7'], ['1', '2'], rfl, rfl, by decide +kernel, by decide +kernel, .inl ⟨rfl, ?_⟩⟩
  unfold NumbersAgree
  decide +kernel

end Octo
