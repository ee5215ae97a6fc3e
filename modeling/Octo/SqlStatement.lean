/-
SQL statements, as the parser builds them and `qualify_query` and
`populate_data_type` leave them.  A statement is one tree: the circular lists
are chains that end in `null`, and two pointers to one statement are two equal
trees.
-/
import Octo.LogicalPlan
import Octo.TableStatement

namespace Octo

open TableStatement (ValueType DataType StatementType)

/-- `BinaryOperations`, in the order of the source: the planner adds the
number of an operation to `LP_ADDITION`. -/
inductive BinaryOperation
  | addition | subtraction | division | multiplication | concat
  | booleanOr | booleanAnd | booleanIs | booleanEquals | booleanNotEquals
  | booleanLessThan | booleanGreaterThan | booleanLessThanOrEquals
  | booleanGreaterThanOrEquals | booleanRegexSensitive
  | booleanRegexInsensitive | booleanIn | booleanNotIn
deriving DecidableEq, Repr

inductive UnaryOperation
  | forceNum | negative | booleanNot
deriving DecidableEq, Repr

inductive JoinType
  | noJoin | tableSpec | crossJoin | innerJoin | rightJoin | leftJoin
  | fullJoin | naturalJoin
deriving DecidableEq, Repr

/-- The joins that `generate_logical_plan` replaces by set operations. -/
def JoinType.isOuter : JoinType → Bool
  | .leftJoin | .rightJoin | .fullJoin => true
  | _ => false

/-- A statement.  `name` is a value of type `COLUMN_REFERENCE`: the name of a
table or a column, or an alias.  A `columnAlias` is a resolved reference: the
list of columns of its table, from the column it means on, and the unique id
of the table.  `populate_data_type` puts the target of a coercion in its
place, except where it does not come to. -/
inductive SqlStatement
  | null
  | value (value : SqlValue) (dataType : DataType)
  | name (text : String) (dataType : DataType)
  | calculated (calculated : SqlStatement) (dataType : DataType)
  | coerced (target : SqlStatement) (coercedType : SqlValueType) (dataType : DataType)
  | columnAlias (column : SqlStatement) (tableId : ℕ)
  | binary (operation : BinaryOperation) (operand0 operand1 : SqlStatement)
  | unary (operation : UnaryOperation) (operand : SqlStatement)
  | functionCall (functionName parameters : SqlStatement)
  | cas (value branches optionalElse : SqlStatement)
  | casBranch (condition value next : SqlStatement)
  | columnList (value next : SqlStatement)
  | columnListAlias (columnList aliasName keywords : SqlStatement)
      (type : ValueType) (next : SqlStatement)
  | column (columnName : SqlStatement) (type : DataType) (table keywords next : SqlStatement)
  | table (tableName source delim : SqlStatement)
  | tableAlias (table aliasName : SqlStatement) (uniqueId : ℕ) (columnList : SqlStatement)
  | join (type : JoinType) (value condition next : SqlStatement)
  | select (selectList tableList whereExpression orderExpression optionalWords
      setOperation : SqlStatement)
  | setOperation (type : SetOption) (operand0 operand1 : SqlStatement)
  | keyword (keyword : TableStatement.OptionalKeyword) (v next : SqlStatement)
deriving DecidableEq, Repr

namespace SqlStatement

def text : SqlStatement → String
  | value literal _ => literal.stringLiteral
  | name letters _ => letters
  | _ => ""

/-- The name of the column a reference means: references to tables of the
schema and to derived tables both lead to a named column. -/
def columnName : SqlStatement → String
  | column label _ _ _ _ => label.text
  | columnListAlias _ aliasName _ _ _ => aliasName.text
  | _ => ""

def aliasNames : SqlStatement → List String
  | columnListAlias _ aliasName _ _ next =>
    aliasName.text :: aliasNames next
  | _ => []

def outputNames : SqlStatement → List String
  | select selectList _ _ _ _ _ => selectList.aliasNames
  | tableAlias query _ _ _ => query.outputNames
  | setOperation _ operand0 _ => operand0.outputNames
  | _ => []

def uniqueId : SqlStatement → Option ℕ
  | tableAlias _ _ id _ => some id
  | _ => none

def tableIds : SqlStatement → List ℕ
  | join _ source _ next => source.uniqueId.toList ++ tableIds next
  | _ => []

end SqlStatement

end Octo
