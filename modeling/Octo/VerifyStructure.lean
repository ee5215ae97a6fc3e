/-
The check of a logical plan.  For every type of node a list says which types its
operands may have; an operand that is missing is let through.
-/
import Octo.LogicalPlan

namespace Octo

namespace LogicalPlan

def isNull : LogicalPlan → Bool
  | null => true
  | _ => false

/-- The first operand of an operator, and what a WHERE or a cell of a column
list holds.  The list has LP_BOOLEAN_GREATER_THAN twice. -/
def operand0Types : List LPActionType :=
  [.addition, .subtraction, .division, .multiplication, .concat, .booleanOr, .booleanAnd,
    .booleanIs, .booleanEquals, .booleanNotEquals, .booleanLessThan, .booleanGreaterThan,
    .booleanLessThanOrEquals, .booleanGreaterThan, .booleanRegexSensitive, .booleanRegexInsensitive,
    .booleanIn, .booleanNotIn, .booleanNot, .negative, .forceNum, .columnAlias, .columnList,
    .columnListAlias, .functionCall, .derivedColumn, .caseNode, .whereNode, .value]

def operand1Types : List LPActionType :=
  [.addition, .subtraction, .division, .multiplication, .concat, .booleanOr, .booleanAnd,
    .booleanIs, .booleanEquals, .booleanNotEquals, .booleanLessThan, .booleanGreaterThan,
    .booleanLessThanOrEquals, .booleanGreaterThan, .booleanRegexSensitive, .booleanRegexInsensitive,
    .booleanIn, .booleanNotIn, .booleanNot, .negative, .forceNum, .columnAlias, .columnList,
    .columnListAlias, .functionCall, .insert, .setOperation, .derivedColumn, .key, .caseNode,
    .whereNode, .value]

def unaryTypes : List LPActionType :=
  [.addition, .subtraction, .division, .multiplication, .concat, .booleanOr, .booleanAnd,
    .booleanIs, .booleanEquals, .booleanNotEquals, .booleanLessThan, .booleanGreaterThan,
    .booleanLessThanOrEquals, .booleanGreaterThan, .booleanRegexSensitive, .booleanRegexInsensitive,
    .booleanIn, .booleanNotIn, .columnAlias, .columnListAlias, .functionCall, .derivedColumn,
    .value]

/-- The types that the two operands of a node may have; none if they are not
checked.  The nodes between an LP_INSERT and its parts are one constructor
here. -/
def operandTypes : LPActionType → Option (List LPActionType × List LPActionType)
  | .addition | .subtraction | .division | .multiplication | .concat
  | .booleanOr | .booleanAnd | .booleanIs | .booleanEquals | .booleanNotEquals
  | .booleanLessThan | .booleanGreaterThan | .booleanLessThanOrEquals
  | .booleanGreaterThanOrEquals | .booleanRegexSensitive
  | .booleanRegexInsensitive | .booleanIn | .booleanNotIn | .whereNode
  | .caseStatement | .caseBranchStatement | .columnList =>
    some (operand0Types, operand1Types)
  | .forceNum | .negative | .booleanNot => some (unaryTypes, [])
  | .functionCall => some ([.value], [.columnList])
  | .caseNode => some ([.caseStatement], [.caseBranch])
  | .caseBranch => some ([.caseBranchStatement], [.caseBranch])
  | .outerJoin | .tableJoin =>
    some ([.table, .insert, .setOperation], [.tableJoin])
  | _ => none

def isJoin : LPActionType → Bool
  | .outerJoin | .tableJoin => true
  | _ => false

/-- `lp_verify_structure_helper` for an operand that may have several types, with
the verdict on what is below it. -/
def isOneOf (types : List LPActionType) (plan : LogicalPlan) (verified : Bool) :
    Bool :=
  plan.isNull || (types.contains plan.type && verified)

/-- `lp_verify_structure_helper`, behind the comparison with the expected type. -/
def lpVerifyStructureHelper : LogicalPlan → Bool
  | subquery _ plan => plan.lpVerifyStructureHelper
  | node type operand0 operand1 =>
    match operandTypes type with
    | none => true
    | some (types0, types1) =>
      isOneOf types0 operand0 operand0.lpVerifyStructureHelper &&
        isOneOf types1 operand1 operand1.lpVerifyStructureHelper &&
        !(isJoin type && operand0.isNull && !operand1.isNull)
  | insert columns tableJoin whereCond _ _ _ _ =>
    isOneOf [.columnList] columns columns.lpVerifyStructureHelper &&
      -- an LP_SELECT has both operands
      (!tableJoin.isNull && isOneOf [.tableJoin] tableJoin tableJoin.lpVerifyStructureHelper) &&
      isOneOf operand0Types whereCond whereCond.lpVerifyStructureHelper
  | setOperation _ plan0 plan1 =>
    isOneOf [.insert, .setOperation] plan0 plan0.lpVerifyStructureHelper &&
      isOneOf [.insert, .setOperation] plan1 plan1.lpVerifyStructureHelper
  | _ => true

def lpVerifyStructure (plan : LogicalPlan) : Bool :=
  [LPActionType.insert, .setOperation].contains plan.type && plan.lpVerifyStructureHelper

end LogicalPlan

end Octo
