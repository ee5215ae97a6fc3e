/-
The logical plan of a query, as one tree: expressions are nodes tagged by their
action type, and the fixed spine below an `LP_INSERT` is one constructor with
named fields, so a plan without one of these parts cannot be written down.
-/
import Mathlib.Data.Nat.Basic

namespace Octo

/-- What a sequence of partial steps returns. -/
theorem bind_some_iff {α β : Type} {x : Option α} {f : α → Option β} {b : β} :
    x >>= f = some b ↔ ∃ a, x = some a ∧ f a = some b :=
  Option.bind_eq_some_iff

/-- The action types, in the order of `lp_action_type.hd`.  The planner
compares and offsets them, so the order carries meaning. -/
inductive LPActionType
  | insert | setOperation | table | tableJoin | outerJoin | columnList
  | columnAlias | columnListAlias | derivedColumn | pieceNumber | value
  | project | select | selectOptions | keywords | whereNode | criteria | output
  | keys | key | keyFix | keyAdvance
  | setUnion | setUnionAll | setExcept | setExceptAll | setIntersect
  | setIntersectAll | plans | setOption
  | functionCall | caseNode | caseStatement | caseBranch | caseBranchStatement
  | addition | subtraction | division | multiplication | concat
  | booleanOr | booleanAnd | booleanIs | booleanEquals | booleanNotEquals
  | booleanLessThan | booleanGreaterThan | booleanLessThanOrEquals
  | booleanGreaterThanOrEquals | booleanRegexSensitive
  | booleanRegexInsensitive | booleanIn | booleanNotIn
  | forceNum | negative | booleanNot
  | invalidAction
deriving DecidableEq, Repr

/-- `SqlValueType`, the types a literal can carry into a plan. -/
inductive SqlValueType
  | unknown | numberLiteral | stringLiteral | dateTime | functionName
  | booleanValue | parameterValue | nulValue
deriving DecidableEq, Repr

structure SqlValue where
  type : SqlValueType
  stringLiteral : String
deriving DecidableEq, Repr

structure SqlColumn where
  columnName : String
deriving DecidableEq, Repr

/-- A stored table.  `keyColumns` holds the columns by key number, as
`get_key_columns` fills them; every stored table has at least one. -/
structure SqlTable where
  tableName : String
  columns : List SqlColumn
  keyColumns : List SqlColumn
  keyColumns_ne_nil : keyColumns ≠ []
deriving DecidableEq, Repr

theorem idColumn_ne_nil : ([⟨"id"⟩] : List SqlColumn) ≠ [] := by decide

structure SqlTableAlias where
  table : SqlTable
  uniqueId : Nat
deriving DecidableEq, Repr

/-- A reference to a column of a stored table.  References to derived tables
have become `LP_DERIVED_COLUMN` before the optimiser runs. -/
structure SqlColumnAlias where
  tableAlias : SqlTableAlias
  column : SqlColumn
deriving DecidableEq, Repr

/-- What a key can be fixed to: `lp_verify_valid_for_key_fix` lets only
values and column references through. -/
inductive KeyValue
  | value (value : SqlValue)
  | columnAlias (ref : SqlColumnAlias)
deriving DecidableEq, Repr

structure CrossReferenceKey where
  table : SqlTable
  column : SqlColumn
  uniqueId : Nat
deriving DecidableEq, Repr

/-- `SqlKey.type`.  The output key of a cross reference plan never gets
one. -/
inductive KeyType
  | unset | fix | advance
deriving DecidableEq, Repr

/-- The table and the column of a key: both pointers are set, or neither. -/
structure KeyColumn where
  table : SqlTable
  column : SqlColumn
deriving DecidableEq, Repr

/-- A key of a plan.  Keys without a table are output keys of other plans. -/
structure SqlKey where
  keyColumn : Option KeyColumn
  keyNum : Int
  uniqueId : Nat
  value : Option KeyValue
  type : KeyType
  isCrossReferenceKey : Bool
  crossReferenceOutputKey : Option CrossReferenceKey
deriving DecidableEq, Repr

/-- The keywords a SELECT plan can carry. -/
inductive OptionalKeyword
  | noKeyword | limit (count : SqlValue) | distinct | populateIndex
  | partOfExpansion
deriving DecidableEq, Repr

/-- The `LP_SET_OPTION` of a set operation. -/
inductive SetOption
  | union | unionAll | except | exceptAll | intersect | intersectAll
deriving DecidableEq, Repr

/-- The operand field of a plan node that points to a sub-query plan.  Two
occurrences with one address are one field in memory: a write through either
is seen by both. -/
abbrev Slot := List Nat

instance : LawfulBEq Slot := inferInstance

inductive LogicalPlan
  | null
  | value (value : SqlValue)
  | columnAlias (ref : SqlColumnAlias)
  | key (key : SqlKey)
  | table (ref : SqlTableAlias)
  | derivedColumn (key : SqlKey) (pieceNumber : Nat)
  | subquery (slot : Slot) (plan : LogicalPlan)
  | node (type : LPActionType) (operand0 operand1 : LogicalPlan)
  | insert (columns tableJoin whereCond orderBy : LogicalPlan)
      (keys : List SqlKey) (keywords : List OptionalKeyword) (output : SqlKey)
  | setOperation (option : SetOption) (plan0 plan1 : LogicalPlan)
deriving DecidableEq, Repr

namespace LogicalPlan

/-- The `type` field of a plan node. -/
def type : LogicalPlan → LPActionType
  | null => .invalidAction
  | value _ => .value
  | columnAlias _ => .columnAlias
  | key _ => .key
  | table _ => .table
  | derivedColumn _ _ => .derivedColumn
  | subquery _ plan => plan.type
  | node type _ _ => type
  | insert _ _ _ _ _ _ _ => .insert
  | setOperation _ _ _ => .setOperation

/-- The number of nodes of a plan tree. -/
def size : LogicalPlan → Nat
  | subquery _ plan => plan.size + 1
  | node _ operand0 operand1 => operand0.size + operand1.size + 1
  | insert columns tableJoin whereCond orderBy _ _ _ =>
    columns.size + tableJoin.size + whereCond.size + orderBy.size + 1
  | setOperation _ plan0 plan1 => plan0.size + plan1.size + 1
  | _ => 1

end LogicalPlan

end Octo
