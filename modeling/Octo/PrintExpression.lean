/-
The M text of an expression plan.  `tmpl_print_expression` writes binary
operators with parentheses around them and unary ones without.  For < and > it
first looks for the type of the leftmost leaf, and gives up on any leaf that
is not a value or a column.
-/
import Octo.MExpression
import Octo.PhysicalPlan

namespace Octo

open MExpression

/-- What the emitted code has for columns and keys.  A column is a key or a
piece of a row, or whatever expression its EXTRACT keyword gives. -/
structure References where
  column : SqlColumnAlias → Expr
  columnIsString : SqlColumnAlias → Bool
  key : SqlKey → List Char

/-- The operand that < and > take the type from. -/
def leftLeaf : LogicalPlan → LogicalPlan
  | .node type operand0 operand1 =>
    if operand1 = .null then .node type operand0 operand1
    else leftLeaf operand0
  | .derivedColumn key _ => .key key
  | plan => plan

/-- `use_string_comparison`; the assertion fails on other leaves. -/
def usesStringComparison (refs : References) (plan : LogicalPlan) : Option Bool :=
  match leftLeaf plan with
  | .value value => some (value.type == .stringLiteral)
  | .columnAlias ref => some (refs.columnIsString ref)
  | _ => none

def printValue (value : SqlValue) : List Char :=
  match value.type with
  | .numberLiteral | .stringLiteral | .dateTime | .unknown | .booleanValue =>
    '"' :: value.stringLiteral.toList ++ ['"']
  | .functionName => value.stringLiteral.toList
  | .parameterValue => "parm".toList ++ value.stringLiteral.toList.drop 1
  | .nulValue => ['"', '"']

def unaryOperator : LPActionType → Option UnaryOp
  | .forceNum => some .plus
  | .negative => some .minus
  | .booleanNot => some .not
  | _ => none

/-- `mid`, where it does not depend on the operands. -/
def binaryOperator : LPActionType → Option BinaryOp
  | .addition => some .plus
  | .subtraction => some .minus
  | .division => some .divide
  | .multiplication => some .times
  | .concat => some .concat
  | .booleanOr => some .or
  | .booleanAnd => some .and
  | .booleanIs | .booleanEquals => some .equals
  | .booleanNotEquals => some .notEquals
  | .booleanLessThanOrEquals => some .notGreater
  | .booleanGreaterThanOrEquals => some .notLess
  | _ => none

def comparisonOperator : LPActionType → Option BinaryOp
  | .booleanLessThan => some .less
  | .booleanGreaterThan => some .greater
  | _ => none

def printBinary (op : BinaryOp) (first second : List Char) : List Char :=
  '(' :: first ++ (op.symbol ++ second) ++ [')']

/-- A key without its last parenthesis, so that another subscript can
follow. -/
def openKey (refs : References) (key : SqlKey) : List Char :=
  (refs.key key).dropLast

/-- The texts of the operands of a node, as far as they are needed. -/
structure OperandTexts where
  first : Option (List Char)
  second : Option (List Char)
  /-- The second operand as the arguments of a function. -/
  parameters : Option (List Char)
  /-- The value of a CASE, if it has one. -/
  caseValue : Option (Option (List Char))
  /-- The second operand as the branches of a CASE on a value. -/
  branches : List Char → Option (List Char)

/-- < and >, on strings by the sorts-after operator. -/
def printComparison (refs : References) (plan : LogicalPlan) (op : BinaryOp)
    (first second : List Char) : Option (List Char) := do
  let strings ← usesStringComparison refs plan
  if strings then
    if plan.type = .booleanLessThan then
      some (printBinary .follows second first)
    else some (printBinary .follows first second)
  else some (printBinary op first second)

/-- Whether a key is in the result of a sub-query; the search list has been
replaced by its output key. -/
def printIn (refs : References) (operand1 : LogicalPlan) (first : List Char)
    (found : String) : Option (List Char) :=
  match operand1 with
  | .key key => some ("($D(".toList ++ openKey refs key ++ ',' :: first ++ found.toList)
  | _ => none

def printOther (refs : References) (type : LPActionType)
    (operand1 : LogicalPlan) (texts : OperandTexts) : Option (List Char) :=
  match type with
  | .whereNode => texts.first
  | .booleanRegexSensitive => do
    some ("$$regmatch^%ydbposix(".toList ++ (← texts.first) ++ ',' :: (← texts.second) ++ [')'])
  | .booleanRegexInsensitive => do
    some ("$$regmatch^%ydbposix(".toList ++ (← texts.first) ++
      ',' :: (← texts.second) ++ ",3)".toList)
  | .booleanIn => do printIn refs operand1 (← texts.first) "))'=0)"
  | .booleanNotIn => do printIn refs operand1 (← texts.first) "))=0)"
  | .functionCall => do
    some ((← texts.first) ++ '(' :: (← texts.parameters) ++ [')'])
  | .caseNode => do
    -- The default is read from the operand that holds the value.
    let value ← texts.caseValue
    let branches ← texts.branches (value.getD ['1'])
    some ("$S(".toList ++ branches ++ "1:".toList ++ value.getD ['"', '"'] ++ [')'])
  | _ => none

def printNode (refs : References) (type : LPActionType)
    (operand0 operand1 : LogicalPlan) (texts : OperandTexts) : Option (List Char) :=
  match unaryOperator type with
  | some op => do
    some (op.symbol :: (← texts.first))
  | none =>
    match binaryOperator type with
    | some op => do
      some (printBinary op (← texts.first) (← texts.second))
    | none =>
      match comparisonOperator type with
      | some op => do
        printComparison refs (.node type operand0 operand1) op (← texts.first) (← texts.second)
      | none => printOther refs type operand1 texts

mutual

/-- `tmpl_print_expression`; `none` where an assertion fails. -/
def tmplPrintExpression (refs : References) : LogicalPlan → Option (List Char)
  | .value value => some (printValue value)
  | .columnAlias ref => some (refs.column ref).render
  | .key key => some (refs.key key)
  | .derivedColumn key pieceNumber =>
    some ("($P(".toList ++ openKey refs key ++ ',' :: refs.key key ++
      "),\"|\",".toList ++ (toString pieceNumber).toList ++ "))".toList)
  | .node type operand0 operand1 =>
    printNode refs type operand0 operand1
      { first := tmplPrintExpression refs operand0
        second := tmplPrintExpression refs operand1
        parameters := printParameters refs operand1
        caseValue := printCaseValue refs operand0
        branches := fun value => printBranches refs value operand1 }
  | .subquery _ plan => tmplPrintExpression refs plan
  | .insert _ _ _ _ _ _ output =>
    some ("$O(".toList ++ openKey refs output ++ ",\"\"))".toList)
  | _ => none

def printParameters (refs : References) : LogicalPlan → Option (List Char)
  | .null => some []
  | .node _ operand0 rest => do
    let first ← tmplPrintExpression refs operand0
    let more ← printParameters refs rest
    some (first ++ (if rest = .null then [] else ',' :: more))
  | _ => none

def printCaseValue (refs : References) : LogicalPlan → Option (Option (List Char))
  | .node .caseStatement value _ =>
    if value = .null then some none
    else (tmplPrintExpression refs value).map some
  | _ => none

/-- The branches of a CASE, each compared to `value`. -/
def printBranches (refs : References) (value : List Char) : LogicalPlan → Option (List Char)
  | .null => some []
  | .node .caseBranch (.node .caseBranchStatement condition branch) rest => do
    let condition ← tmplPrintExpression refs condition
    let branch ← tmplPrintExpression refs branch
    let more ← printBranches refs value rest
    some ('(' :: condition ++ ")=(".toList ++ value ++ "):(".toList ++ branch ++
      "),".toList ++ more)
  | _ => none

end

end Octo
