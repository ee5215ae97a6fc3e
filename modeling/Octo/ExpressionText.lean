/-
What the text of an expression plan means.  A plan of arithmetic, logical and
comparison operators is evaluated bottom-up; its text is read by the rules of
M.  The two agree unless it matters that an operator takes only a part of the
text of a column.
-/
import Octo.PrintExpression

namespace Octo

open MExpression Option Expr
open Bool hiding false_or or_false

/-- The operator of a binary node, with < and > on numbers. -/
def nodeOperator (type : LPActionType) : Option BinaryOp :=
  (binaryOperator type).or (comparisonOperator type)

def literalText (value : SqlValue) : Option (List Char) :=
  match value.type with
  | .numberLiteral | .stringLiteral | .dateTime | .unknown | .booleanValue =>
    some value.stringLiteral.toList
  | .nulValue => some []
  | .functionName | .parameterValue => none

def evalPlan {α : Type*} (ops : Operators α) (refs : References) : LogicalPlan → Option α
  | .value value => (literalText value).map ops.literal
  | .columnAlias ref => some ((refs.column ref).eval ops)
  | .node type operand0 operand1 =>
    match unaryOperator type with
    | some op => (evalPlan ops refs operand0).map (ops.unary op)
    | none =>
      match nodeOperator type with
      | some op => do
        some (ops.binary op (← evalPlan ops refs operand0) (← evalPlan ops refs operand1))
      | none => none
  | _ => none

/-- Plans of literals on one line without quotes, columns and operators, in
which < and > do not compare strings. -/
def isExpression (refs : References) : LogicalPlan → Bool
  | .value value => (literalText value).any fun text => '"' ∉ text ∧ '\n' ∉ text
  | .columnAlias _ => true
  | .node type operand0 operand1 =>
    match unaryOperator type with
    | some _ => isExpression refs operand0 && operand1 == .null
    | none =>
      (nodeOperator type).isSome && isExpression refs operand0 && isExpression refs operand1 &&
        ((comparisonOperator type).isNone ||
        usesStringComparison refs (.node type operand0 operand1) != some true)
  | _ => false

/-- The leftmost leaf of every < and > is a value or a column. -/
def leavesTyped (refs : References) : LogicalPlan → Bool
  | .node type operand0 operand1 =>
    leavesTyped refs operand0 && leavesTyped refs operand1 && ((comparisonOperator type).isNone ||
      (usesStringComparison refs (.node type operand0 operand1)).isSome)
  | _ => true

/-- Operators before a column apply to the first atom of its expression, with
the same value as if they applied to all of it. -/
def Takes {α : Type*} (ops : Operators α) (refs : References) (apply : α → α) :
    LogicalPlan → Prop
  | .columnAlias ref =>
    (refs.column ref).evalBehind ops apply = apply ((refs.column ref).eval ops)
  | .node type operand _ =>
    ∀ op, unaryOperator type = some op →
      Takes ops refs (fun value => apply (ops.unary op value)) operand
  | _ => True

/-- All unary operators do so, and all binary ones with the value to their
left. -/
def ColumnsFit {α : Type*} (ops : Operators α) (refs : References) : LogicalPlan → Prop
  | .node type operand0 operand1 =>
    ColumnsFit ops refs operand0 ∧ ColumnsFit ops refs operand1 ∧
      match unaryOperator type with
      | some op => Takes ops refs (ops.unary op) operand0
      | none =>
        ∀ op left, nodeOperator type = some op → evalPlan ops refs operand0 = some left →
          Takes ops refs (ops.binary op left) operand1
  | _ => True

/-- The expressions that a plan is made of. -/
def parts : LogicalPlan → List LogicalPlan
  | .node type operand0 operand1 =>
    .node type operand0 operand1 ::
      (parts operand0 ++ if (unaryOperator type).isSome then [] else parts operand1)
  | plan => [plan]

def TextHasValue {α : Type*} (ops : Operators α) (refs : References) (plan : LogicalPlan) : Prop :=
  ∃ text value, tmplPrintExpression refs plan = some text ∧ evalText ops text = some value ∧
    evalPlan ops refs plan = some value

/-- What is written for a plan, if the text is read by the rules of M. -/
def writtenExpr (refs : References) : LogicalPlan → Expr
  | .value value => .literal ((literalText value).getD [])
  | .columnAlias ref => refs.column ref
  | .node type operand0 operand1 =>
    match unaryOperator type with
    | some op => .unaryBefore op (writtenExpr refs operand0)
    | none =>
      .paren (.binaryBefore ((nodeOperator type).getD .plus)
        (writtenExpr refs operand0) (writtenExpr refs operand1))
  | _ => .literal []

variable {plan : LogicalPlan}

section

-- The equations are made here, not by the proofs that wait for them.
attribute [local simp] tmplPrintExpression evalPlan isExpression writtenExpr

end

/-- Expressions by the form of their topmost node. -/
theorem isExpression_induction {refs : References} {motive : LogicalPlan → Prop}
    (hvalue : ∀ value text, literalText value = some text → '"' ∉ text ∧ '\n' ∉ text →
    motive (.value value))
    (hcolumn : ∀ ref, motive (.columnAlias ref))
    (hunary : ∀ type op operand, unaryOperator type = some op →
    isExpression refs operand = true → motive operand → motive (.node type operand .null))
    (hbinary : ∀ type op first second, unaryOperator type = none → nodeOperator type = some op →
    ((comparisonOperator type).isSome →
    usesStringComparison refs (.node type first second) ≠ some true) →
    isExpression refs first = true → isExpression refs second = true →
    motive first → motive second → motive (.node type first second))
    (hplan : isExpression refs plan = true) : motive plan := by
  induction plan with
  | value value =>
    rw [isExpression, any_eq_true_iff_get] at hplan
    obtain ⟨hsome, hquote⟩ := hplan
    exact hvalue value _ (some_get hsome).symm (by simpa using hquote)
  | columnAlias ref => exact hcolumn ref
  | node type operand0 operand1 ih0 ih1 =>
    rw [isExpression] at hplan
    cases hop : unaryOperator type with
    | some op =>
      simp only [hop, and_eq_true, beq_iff_eq] at hplan
      rw [hplan.2]
      exact hunary type op operand0 hop hplan.1 (ih0 hplan.1)
    | none =>
      simp only [hop, and_eq_true, or_eq_true, isNone_iff_eq_none, bne_iff_ne] at hplan
      obtain ⟨⟨⟨hnode, h0⟩, h1⟩, hcomparison⟩ := hplan
      obtain ⟨op, hnode⟩ := isSome_iff_exists.mp hnode
      apply hbinary type op operand0 operand1 hop hnode _ h0 h1 (ih0 h0) (ih1 h1)
      intro hsome
      apply hcomparison.resolve_left
      intro hnone
      simp [hnone] at hsome
  | _ => simp [isExpression] at hplan

section Text

variable {refs : References}

theorem printValue_eq {value : SqlValue} {text : List Char}
    (htext : literalText value = some text) : printValue value = (literal text).render := by
  unfold literalText at htext
  unfold printValue render
  split at htext <;> simp_all

variable {type : LPActionType} {plan : LogicalPlan}

theorem tmplPrintExpression_unary {op : UnaryOp} (hop : unaryOperator type = some op)
    (operand other : LogicalPlan) : tmplPrintExpression refs (.node type operand other) =
    (tmplPrintExpression refs operand).map (op.symbol :: ·) := by
  rw [tmplPrintExpression, printNode, hop]
  cases tmplPrintExpression refs operand <;> rfl

variable {first second : LogicalPlan}

variable {op : BinaryOp}

/-- A binary node is printed if its operands are and, for < and >, the type of
the operands is found. -/
theorem tmplPrintExpression_binary (hnot : unaryOperator type = none)
    (hop : nodeOperator type = some op) (hnumeric : (comparisonOperator type).isSome →
    usesStringComparison refs (.node type first second) ≠ some true) :
    tmplPrintExpression refs (.node type first second) =
      if (comparisonOperator type).isNone ∨
          (usesStringComparison refs (.node type first second)).isSome then do
        let first ← tmplPrintExpression refs first
        let second ← tmplPrintExpression refs second
        some (printBinary op first second)
      else none := by
  rw [tmplPrintExpression, printNode, hnot]
  unfold nodeOperator at hop
  cases hbinary : binaryOperator type with
  | some other =>
    have hcomparison : comparisonOperator type = none := by
      cases type <;> first | rfl | simp [binaryOperator] at hbinary
    simp only [hbinary, some_or, some.injEq] at hop
    simp [hcomparison, hop]
  | none =>
    rw [hbinary, none_or] at hop
    simp only [hop, isNone_some, false_eq_true, false_or]
    have hnumeric := hnumeric (by simp [hop])
    cases hstrings : usesStringComparison refs (.node type first second) with
    | none => simp [printComparison, hstrings]
    | some strings =>
      cases strings with
      | true => exact absurd hstrings hnumeric
      | false => simp [printComparison, hstrings]

/-- The text of a plan, or none if the type of a comparison is not found. -/
theorem tmplPrintExpression_eq (hplan : isExpression refs plan = true) :
    tmplPrintExpression refs plan =
      if leavesTyped refs plan then some (writtenExpr refs plan).render
      else none := by
  apply isExpression_induction (motive := fun plan =>
    tmplPrintExpression refs plan =
      if leavesTyped refs plan then some (writtenExpr refs plan).render
      else none) _ _ _ _ hplan
  · intro value text htext hquote
    simp [tmplPrintExpression, leavesTyped, writtenExpr, htext, printValue_eq htext]
  · intro ref
    simp [tmplPrintExpression, leavesTyped, writtenExpr]
  · intro type op operand hop _ ih
    have hcomparison : comparisonOperator type = none := by
      cases type <;> first | rfl | simp [unaryOperator] at hop
    rw [tmplPrintExpression_unary hop, ih]
    by_cases hleaves : leavesTyped refs operand = true
    · simp [leavesTyped, hleaves, hcomparison, writtenExpr, hop]
    · simp [leavesTyped, hleaves]
  · intro type op first second hnot hop hnumeric _ _ ih1 ih2
    rw [tmplPrintExpression_binary hnot hop hnumeric, ih1, ih2, leavesTyped]
    by_cases htyped : (comparisonOperator type).isNone = true ∨
        (usesStringComparison refs (.node type first second)).isSome = true
    · by_cases h1 : leavesTyped refs first = true
      · by_cases h2 : leavesTyped refs second = true
        · simp [h1, h2, writtenExpr, hnot, hop, getD_some, printBinary, render]
        · simp [h2]
      · simp [h1]
    · rw [if_neg htyped, if_neg]
      simp only [and_eq_true, or_eq_true]
      exact fun h => htyped h.2

theorem wellFormed_writtenExpr (hrefs : ∀ ref, (refs.column ref).wellFormed = true)
    (hplan : isExpression refs plan = true) : (writtenExpr refs plan).wellFormed = true := by
  apply isExpression_induction (motive := fun plan =>
    (writtenExpr refs plan).wellFormed = true) _ _ _ _ hplan
  · intro value text htext hquote
    simp [writtenExpr, htext, wellFormed, hquote]
  · exact hrefs
  · intro type op operand hop _ ih
    rw [writtenExpr, hop]
    exact wellFormed_unaryBefore op ih
  · intro type op first second hnot hop _ _ _ ih1 ih2
    rw [writtenExpr, hnot]
    exact wellFormed_binaryBefore _ ih1 ih2

section Evaluate

variable {α : Type*} (ops : Operators α)

variable {type : LPActionType}

theorem evalPlan_unary {op : UnaryOp} (hop : unaryOperator type = some op)
    (operand other : LogicalPlan) : evalPlan ops refs (.node type operand other) =
    (evalPlan ops refs operand).map (ops.unary op) := by
  rw [evalPlan, hop]

theorem evalPlan_binary (hnot : unaryOperator type = none)
    (hop : nodeOperator type = some op) {left right : α}
    (hleft : evalPlan ops refs first = some left) (hright : evalPlan ops refs second = some right) :
    evalPlan ops refs (.node type first second) = some (ops.binary op left right) := by
  rw [evalPlan, hnot, hop, hleft, hright]
  rfl

/-- What is written for a plan is taken as a whole if its column is. -/
theorem takes_iff (hplan : isExpression refs plan = true) (hfit : ColumnsFit ops refs plan)
    (apply : α → α) : Takes ops refs apply plan ↔
    (writtenExpr refs plan).evalBehind ops apply = apply ((writtenExpr refs plan).eval ops) := by
  revert hfit apply
  apply isExpression_induction (motive := fun plan =>
    ColumnsFit ops refs plan → ∀ apply : α → α, Takes ops refs apply plan ↔
    (writtenExpr refs plan).evalBehind ops apply = apply ((writtenExpr refs plan).eval ops))
    _ _ _ _ hplan
  · intro value text _ _ _ apply
    exact iff_of_true trivial rfl
  · intro ref _ apply
    rfl
  · intro type op operand hop _ ih hfit apply
    simp only [ColumnsFit, hop] at hfit
    have hunary := (ih hfit.1 _).mp hfit.2.2
    simp only [Takes, hop, some.injEq, forall_eq', ih hfit.1, writtenExpr, eval_unaryBefore,
      evalBehind_unaryBefore, hunary]
  · intro type op first second hnot hop _ _ _ _ _ _ apply
    simp [Takes, hnot, writtenExpr, evalBehind]

/-- Where columns fit, the text means what the plan means. -/
theorem evalPlan_eq_of_columnsFit (hplan : isExpression refs plan = true)
    (hfit : ColumnsFit ops refs plan) :
    evalPlan ops refs plan = some ((writtenExpr refs plan).eval ops) := by
  revert hfit
  apply isExpression_induction (motive := fun plan =>
    ColumnsFit ops refs plan → evalPlan ops refs plan = some ((writtenExpr refs plan).eval ops))
    _ _ _ _ hplan
  · intro value text htext hquote _
    simp [evalPlan, writtenExpr, htext, eval]
  · intro ref _
    rfl
  · intro type op operand hop hoperand ih hfit
    simp only [ColumnsFit, hop] at hfit
    have htakes := (takes_iff ops hoperand hfit.1 _).mp hfit.2.2
    rw [evalPlan_unary ops hop, ih hfit.1, writtenExpr, hop]
    simp only [eval_unaryBefore, htakes, map_some]
  · intro type op first second hnot hop _ _ hsecond ih1 ih2 hfit
    simp only [ColumnsFit, hnot] at hfit
    have htakes := (takes_iff ops hsecond hfit.2.1 _).mp (hfit.2.2 op _ hop (ih1 hfit.1))
    rw [evalPlan_binary ops hnot hop (ih1 hfit.1) (ih2 hfit.2.1), writtenExpr, hnot, hop]
    simp only [getD_some, eval, eval_binaryBefore, htakes]

/-- If the text of every part means what the part means, its columns fit. -/
theorem columnsFit_of_parts (hplan : isExpression refs plan = true)
    (hparts : ∀ part ∈ parts plan,
      evalPlan ops refs part = some ((writtenExpr refs part).eval ops)) :
    ColumnsFit ops refs plan := by
  revert hparts
  apply isExpression_induction (motive := fun plan =>
    (∀ part ∈ parts plan, evalPlan ops refs part = some ((writtenExpr refs part).eval ops)) →
    ColumnsFit ops refs plan) _ _ _ _ hplan
  · intro _ _ _ _ _
    trivial
  · intro _ _
    trivial
  · intro type op operand hop hoperand ih hparts
    simp only [parts, hop, isSome_some, if_true, List.append_nil, List.forall_mem_cons] at hparts
    have hfit := ih hparts.2
    have hnode := hparts.1
    rw [evalPlan_unary ops hop, evalPlan_eq_of_columnsFit ops hoperand hfit, writtenExpr, hop,
      map_some, some.injEq] at hnode
    simp only [eval_unaryBefore] at hnode
    simp only [ColumnsFit, hop]
    exact ⟨hfit, trivial, (takes_iff ops hoperand hfit _).mpr hnode.symm⟩
  · intro type op first second hnot hop _ hfirst hsecond ih1 ih2 hparts
    simp only [parts, hnot, isSome_none, false_eq_true, if_false, List.forall_mem_cons,
      List.forall_mem_append] at hparts
    have hfit1 := ih1 hparts.2.1
    have hfit2 := ih2 hparts.2.2
    have hleft := evalPlan_eq_of_columnsFit ops hfirst hfit1
    have hnode := hparts.1
    rw [evalPlan_binary ops hnot hop hleft (evalPlan_eq_of_columnsFit ops hsecond hfit2),
      writtenExpr, hnot, hop, some.injEq] at hnode
    simp only [getD_some, eval, eval_binaryBefore] at hnode
    simp only [ColumnsFit, hnot]
    refine ⟨hfit1, hfit2, fun other left hother hvalue => ?_⟩
    obtain rfl := some.inj (hop.symm.trans hother)
    obtain rfl := some.inj (hleft.symm.trans hvalue)
    exact (takes_iff ops hsecond hfit2 _).mpr hnode.symm

theorem mem_parts_spec {part : LogicalPlan} (hpart : part ∈ parts plan)
    (hplan : isExpression refs plan = true) : isExpression refs part = true ∧
    (leavesTyped refs plan = true → leavesTyped refs part = true) ∧
    (ColumnsFit ops refs plan → ColumnsFit ops refs part) := by
  induction plan with
  | node type operand0 operand1 ih0 ih1 =>
    rw [parts, List.mem_cons, List.mem_append] at hpart
    rcases hpart with rfl | hpart
    · exact ⟨hplan, id, id⟩
    · rw [isExpression] at hplan
      cases hop : unaryOperator type with
      | some op =>
        simp only [hop, isSome_some, if_true, List.not_mem_nil, or_false] at hpart
        simp only [hop, and_eq_true] at hplan
        have hspec := ih0 hpart hplan.1
        simp only [leavesTyped, ColumnsFit, and_eq_true]
        exact ⟨hspec.1, fun h => hspec.2.1 h.1.1, fun h => hspec.2.2 h.1⟩
      | none =>
        simp only [hop, isSome_none, false_eq_true, if_false] at hpart
        simp only [hop, and_eq_true] at hplan
        simp only [leavesTyped, ColumnsFit, and_eq_true]
        rcases hpart with hpart | hpart
        · have hspec := ih0 hpart hplan.1.1.2
          exact ⟨hspec.1, fun h => hspec.2.1 h.1.1, fun h => hspec.2.2 h.1⟩
        · have hspec := ih1 hpart hplan.1.2
          exact ⟨hspec.1, fun h => hspec.2.1 h.1.2, fun h => hspec.2.2 h.2.1⟩
  | _ =>
    obtain rfl := List.mem_singleton.mp hpart
    exact ⟨hplan, id, id⟩

end Evaluate

end Text

/-- The texts of an expression and of all that it is made of have the values
of the plans exactly if the type of each < and > is found and no operator
makes a difference by taking a part of a column only. -/
theorem tmplPrintExpression_value_iff {α : Type*} (ops : Operators α) (refs : References)
    (hrefs : ∀ ref, (refs.column ref).wellFormed = true) (plan : LogicalPlan)
    (hplan : isExpression refs plan = true) :
    (∀ part ∈ parts plan, TextHasValue ops refs part) ↔
      leavesTyped refs plan = true ∧ ColumnsFit ops refs plan := by
  -- The text of every part is that of `writtenExpr`, which is read back.
  have hvalue : ∀ part ∈ parts plan, TextHasValue ops refs part ↔ leavesTyped refs part = true ∧
      evalPlan ops refs part = some ((writtenExpr refs part).eval ops) := by
    intro part hpart
    have hexpression := (mem_parts_spec ops hpart hplan).1
    have hread := evalText_render ops (wellFormed_writtenExpr hrefs hexpression)
    rw [TextHasValue, tmplPrintExpression_eq hexpression]
    by_cases hleaves : leavesTyped refs part = true
    · simp [hleaves, hread]
    · simp [hleaves]
  constructor
  · intro hparts
    have hself : plan ∈ parts plan := by
      cases plan <;> simp [parts]
    exact ⟨((hvalue plan hself).mp (hparts plan hself)).1, columnsFit_of_parts ops hplan
      fun part hpart => ((hvalue part hpart).mp (hparts part hpart)).2⟩
  · rintro ⟨hleaves, hfit⟩ part hpart
    obtain ⟨hexpression, htyped, hfits⟩ := mem_parts_spec ops hpart hplan
    exact (hvalue part hpart).mpr
      ⟨htyped hleaves, evalPlan_eq_of_columnsFit ops hexpression (hfits hfit)⟩

namespace ExpressionTextWitness

/-- `CREATE TABLE items (id INTEGER PRIMARY KEY,
code INTEGER EXTRACT "$$group(...)_$$serial(...)")` -/
def items : SqlTableAlias where
  table := ⟨"items", [⟨"id"⟩, ⟨"code"⟩], [⟨"id"⟩], idColumn_ne_nil⟩
  uniqueId := 0

def refs : References where
  column ref :=
    if ref.column = ⟨"code"⟩ then
      .binary .concat (.reference "$$group(k)".toList) (.reference "$$serial(k)".toList)
    else .reference "^cursor(cursorId,\"keys\",0)".toList
  columnIsString _ := false
  key _ := "^cursor(cursorId,\"keys\",0)".toList

def column (name : String) : LogicalPlan := .columnAlias ⟨items, ⟨name⟩⟩

def number (text : String) : LogicalPlan := .value ⟨.numberLiteral, text⟩

/-- `-id < 3` -/
def negativeLess : LogicalPlan :=
  .node .booleanLessThan (.node .negative (column "id") .null) (number "3")

/-- `2 * code` -/
def twiceCode : LogicalPlan :=
  .node .multiplication (number "2") (column "code")

/-- `(2 + id) * -id < 3 || code` -/
def labelledCode : LogicalPlan :=
  .node .concat (.node .booleanLessThan (.node .multiplication
    (.node .addition (number "2") (column "id")) (.node .negative (column "id") .null))
    (number "3")) (column "code")

/-- Texts, of which only the joining is meant as in M. -/
def texts : Operators (List Char) where
  literal text := text
  reference text := text
  unary op text := op.symbol :: text
  binary
    | .concat, left, right => left ++ right
    | op, left, right => '(' :: left ++ op.symbol ++ right ++ [')']

/-- Arithmetic on natural numbers, for a code of group 1 and serial 2.  Serials
have one digit. -/
def numbers : Operators ℕ where
  literal text := text.foldl (fun n c => 10 * n + (c.toNat - '0'.toNat)) 0
  reference text := if text = "$$group(k)".toList then 1 else 2
  unary _ n := n
  binary
    | .times, left, right => left * right
    | .concat, left, right => left * 10 + right
    | _, left, right => left + right

end ExpressionTextWitness

open ExpressionTextWitness in
/-- The type of `-id` is not looked for below the operator.  In `("2"*a_b)`
the product is taken of the first part of the column. -/
theorem text_has_other_value : (isExpression refs negativeLess = true ∧
      tmplPrintExpression refs negativeLess = none) ∧
    isExpression refs twiceCode = true ∧ tmplPrintExpression refs twiceCode =
        some "(\"2\"*$$group(k)_$$serial(k))".toList ∧
      evalText numbers "(\"2\"*$$group(k)_$$serial(k))".toList = some 22 ∧
      evalPlan numbers refs twiceCode = some 24 := by
  decide +kernel

open ExpressionTextWitness in
/-- To join texts is associative, so it may be done with a part of the column. -/
theorem labelledCode_value : TextHasValue texts refs labelledCode := by
  refine (tmplPrintExpression_value_iff texts refs ?_ labelledCode (by decide)).mpr ?_ _
    List.mem_cons_self
  · intro ref
    by_cases hcode : ref.column = ⟨"code"⟩
    · simp only [refs, hcode, if_true]
      decide
    · simp only [refs, hcode, if_false]
      decide
  · have hproduct : ColumnsFit texts refs (.node .multiplication
        (.node .addition (number "2") (column "id")) (.node .negative (column "id") .null)) :=
      ⟨⟨trivial, trivial, fun _ _ _ _ => rfl⟩, ⟨trivial, trivial, rfl⟩, fun _ _ _ _ _ _ => rfl⟩
    refine ⟨by decide, ⟨hproduct, trivial, fun _ _ _ _ => trivial⟩, trivial, ?_⟩
    intro op left hop _
    cases hop
    exact List.append_assoc left _ _

end Octo
