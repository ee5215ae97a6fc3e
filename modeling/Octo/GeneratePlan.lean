/-
The logical plan of a statement.  Expressions become trees of operators, the
tables of a FROM clause a join, and the conditions of the joins are added to
the WHERE.  A statement on which the generator stops, at an assert or with an
error, has no plan.
-/
import Octo.OptimizePlan
import Octo.OuterJoinRewrite

namespace Octo

abbrev Generated := Option (LogicalPlan × OptimizerState)

/-- The planner adds the number of an operation to `LP_ADDITION`. -/
def BinaryOperation.actionType : BinaryOperation → LPActionType
  | .addition => .addition
  | .subtraction => .subtraction
  | .division => .division
  | .multiplication => .multiplication
  | .concat => .concat
  | .booleanOr => .booleanOr
  | .booleanAnd => .booleanAnd
  | .booleanIs => .booleanIs
  | .booleanEquals => .booleanEquals
  | .booleanNotEquals => .booleanNotEquals
  | .booleanLessThan => .booleanLessThan
  | .booleanGreaterThan => .booleanGreaterThan
  | .booleanLessThanOrEquals => .booleanLessThanOrEquals
  | .booleanGreaterThanOrEquals => .booleanGreaterThanOrEquals
  | .booleanRegexSensitive => .booleanRegexSensitive
  | .booleanRegexInsensitive => .booleanRegexInsensitive
  | .booleanIn => .booleanIn
  | .booleanNotIn => .booleanNotIn

/-- The planner adds the number of an operation to `LP_FORCE_NUM`. -/
def UnaryOperation.actionType : UnaryOperation → LPActionType
  | .forceNum => .forceNum
  | .negative => .negative
  | .booleanNot => .booleanNot

/-- The characters that keep a regex from being a plain text. -/
def regexCharacters : List Char :=
  ['\\', '*', '+', '\x7b', '(', ')', '\x7d', '[', ']', '?', '.', '|']

/-- The text of a regex that is `^`, characters and `$`. -/
def plainRegex (pattern : List Char) : Option (List Char) :=
  match pattern with
  | '^' :: rest =>
    let text := rest.takeWhile fun c => c ≠ '$' && c ∉ regexCharacters
    if rest.drop text.length = ['$'] then some text else none
  | _ => none

/-- A regex for a plain text is an equality, which can be optimised later; the
literal is changed with it. -/
def regexToEquals (operand0 operand1 : LogicalPlan) : LogicalPlan :=
  match operand1 with
  | .value literal =>
    match plainRegex literal.stringLiteral.toList with
    | some text =>
      if literal.type = .stringLiteral ∨ literal.type = .numberLiteral then
        .node .booleanEquals operand0 (.value { literal with stringLiteral := String.ofList text })
      else .node .booleanRegexSensitive operand0 operand1
    | none => .node .booleanRegexSensitive operand0 operand1
  | _ => .node .booleanRegexSensitive operand0 operand1

def binaryPlan (operation : BinaryOperation) (operand0 operand1 : LogicalPlan) : LogicalPlan :=
  if operation = .booleanRegexSensitive then regexToEquals operand0 operand1
  else .node operation.actionType operand0 operand1

/-- IN and NOT IN over a list of values: the comparison with the last value
comes first. -/
def inListPlan (comparison connective : LPActionType) (operand : LogicalPlan) :
    List LogicalPlan → LogicalPlan
  | [] => .null
  | value :: rest =>
    rest.foldl (fun ret next => .node connective (.node comparison operand next) ret)
      (.node comparison operand value)

/-- The parameters of a function; those that are missing are left out. -/
def parameterCells : List LogicalPlan → LogicalPlan
  | [] => .null
  | plan :: rest =>
    if plan = .null then parameterCells rest
    else .node .columnList plan (parameterCells rest)

/-- `lp_join_where`, on what the two LP_WHEREs hold. -/
def lpJoinWhere (where1 where2 : LogicalPlan) : LogicalPlan :=
  if where1 = .null then where2
  else if where2 = .null then where1
  else .node .booleanAnd where1 where2

def lpUpdatePlanKeys (key : SqlKey) : LogicalPlan → LogicalPlan
  | .insert columns tableJoin whereCond orderBy keys keywords output =>
    .insert columns tableJoin whereCond orderBy keys keywords
      { output with keyNum := key.keyNum, uniqueId := key.uniqueId }
  | .setOperation option plan0 plan1 =>
    .setOperation option (lpUpdatePlanKeys key plan0) (lpUpdatePlanKeys key plan1)
  | plan => plan

/-- `get_column_piece_number`: the place of a name among the columns of a
derived table. -/
def getColumnPieceNumber (columnName : String) (names : List String) : Option ℕ :=
  (names.idxOf? columnName).map (· + 1)

structure DerivedTable where
  uniqueId : ℕ
  names : List String
  key : SqlKey

/-- `lp_replace_helper`.  Below the types it knows, the assert admits only types
behind `LP_ADDITION`. -/
def lpReplaceHelper (table : DerivedTable) : LogicalPlan → Option LogicalPlan
  | .null => some .null
  | .columnAlias ref =>
    if ref.tableAlias.uniqueId = table.uniqueId then do
      let part ← getColumnPieceNumber ref.column.columnName table.names
      some (.derivedColumn table.key part)
    else some (.columnAlias ref)
  | .value literal => some (.value literal)
  | .derivedColumn key part => some (.derivedColumn key part)
  | .node type operand0 operand1 =>
    if type = .whereNode then do
      let operand0 ← lpReplaceHelper table operand0
      some (.node type operand0 operand1)
    else if type = .columnList ∨ type = .functionCall ∨
        LPActionType.addition.ctorIdx < type.ctorIdx then do
      let operand0 ← lpReplaceHelper table operand0
      let operand1 ← lpReplaceHelper table operand1
      some (.node type operand0 operand1)
    else none
  | _ => none

/-- The first cell of an ORDER BY. -/
def replaceOrderBy (table : DerivedTable) : LogicalPlan → Option LogicalPlan
  | .node type operand0 operand1 => do
    let operand0 ← lpReplaceHelper table operand0
    some (.node type operand0 operand1)
  | plan => some plan

structure SelectParts where
  columns : LogicalPlan
  whereCond : LogicalPlan
  orderBy : LogicalPlan

def lpReplaceDerivedTableReferences (table : DerivedTable)
    (parts : SelectParts) : Option SelectParts := do
  let whereCond ← lpReplaceHelper table parts.whereCond
  let columns ← lpReplaceHelper table parts.columns
  let orderBy ← replaceOrderBy table parts.orderBy
  some ⟨columns, whereCond, orderBy⟩

/-- The loop over the join that factors in the columns of derived tables; the
list of the tables and the join have the same length. -/
def replaceDerived : SqlStatement → LogicalPlan → SelectParts → Option SelectParts
  | .join _ source _ nextSource, .node _ plan next, parts =>
    match lpGetOutputKey plan, source with
    | some key, .tableAlias _ _ uniqueId columnList => do
      let parts ← lpReplaceDerivedTableReferences ⟨uniqueId, columnList.aliasNames, key⟩ parts
      replaceDerived nextSource next parts
    | _, _ => replaceDerived nextSource next parts
  | _, _, parts => some parts

def selectKeywords : SqlStatement → List OptionalKeyword
  | .keyword .optionalLimit (.value count _) next =>
    .limit count :: selectKeywords next
  | .keyword .optionalDistinct _ next => .distinct :: selectKeywords next
  | .keyword _ _ next => .noKeyword :: selectKeywords next
  | _ => []

def outputKey (uniqueId : ℕ) : SqlKey where
  keyColumn := none
  keyNum := 0
  uniqueId := uniqueId
  value := none
  type := .advance
  isCrossReferenceKey := false
  crossReferenceOutputKey := none

namespace SqlStatement

def isColumnList : SqlStatement → Bool
  | columnList _ _ => true
  | _ => false

def columnCount : SqlStatement → ℕ
  | columnListAlias _ _ _ _ next => columnCount next + 1
  | _ => 0

end SqlStatement

/-- A cell for every column of the ORDER BY; the source converts the first one
every time. -/
def orderCells (convert : OptimizerState → Generated) : ℕ → OptimizerState → Generated
  | 0, state => some (.null, state)
  | count + 1, state => do
    let (column, state) ← convert state
    let (next, state) ← orderCells convert count state
    some (.node .columnList column next, state)

section Generator

variable (tableOf : ℕ → SqlTable) (optimize : Optimizer)
  (generateOuter : SelectQuery → OptimizerState → Generated)

mutual

/-- `lp_generate_where`.  The table of a reference is found by its id. -/
def lpGenerateWhere : SqlStatement → OptimizerState → Generated
  | .null, state => some (.null, state)
  | .value literal _, state => some (.value literal, state)
  | .name text _, state => some (.value ⟨.unknown, text⟩, state)
  | .calculated calculated _, state => lpGenerateWhere calculated state
  | .binary operation operand0 operand1, state => do
    let (plan0, state) ← lpGenerateWhere operand0 state
    if operand1.isColumnList && operation == .booleanIn then
      let (values, state) ← lpGenerateValues operand1 state
      some (inListPlan .booleanEquals .booleanOr plan0 values, state)
    else if operand1.isColumnList && operation == .booleanNotIn then
      let (values, state) ← lpGenerateValues operand1 state
      some (inListPlan .booleanNotEquals .booleanAnd plan0 values, state)
    else
      let (plan1, state) ← lpGenerateWhere operand1 state
      some (binaryPlan operation plan0 plan1, state)
  | .unary operation operand, state => do
    let (plan, state) ← lpGenerateWhere operand state
    some (.node operation.actionType plan .null, state)
  | .functionCall functionName parameters, state => do
    let (label, state) ← lpGenerateWhere functionName state
    let (values, state) ← lpGenerateValues parameters state
    some (.node .functionCall label (parameterCells values), state)
  | .columnAlias column tableId, state =>
    some (.columnAlias ⟨⟨tableOf tableId, tableId⟩, ⟨column.columnName⟩⟩, state)
  | .cas value branches optionalElse, state => do
    let (plan, state) ← lpGenerateWhere value state
    let (other, state) ← lpGenerateWhere optionalElse state
    let (cells, state) ← lpGenerateBranches branches state
    some (.node .caseNode (.node .caseStatement plan other) cells, state)
  | .setOperation option operand0 operand1, state => do
    let (plan0, later) ← generateLogicalPlan operand0 state
    let (plan1, later) ← generateLogicalPlan operand1 later
    let key ← lpGetOutputKey plan0
    let (plan, later) ← optimize (.setOperation option
      (lpUpdatePlanKeys key plan0) (lpUpdatePlanKeys key plan1)) later
    some (.subquery [state.counter] plan, later)
  | .tableAlias table aliasName uniqueId columnList, state => do
    let (plan, later) ← generateSelect table aliasName uniqueId columnList state
    let (plan, later) ← optimize plan later
    some (.subquery [state.counter] plan, later)
  | _, _ => none

def lpGenerateValues : SqlStatement → OptimizerState → Option (List LogicalPlan × OptimizerState)
  | .columnList value next, state => do
    let (plan, state) ← lpGenerateWhere value state
    let (plans, state) ← lpGenerateValues next state
    some (plan :: plans, state)
  | .null, state => some ([], state)
  | _, _ => none

def lpGenerateBranches : SqlStatement → OptimizerState → Generated
  | .casBranch condition value next, state => do
    let (plan0, state) ← lpGenerateWhere condition state
    let (plan1, state) ← lpGenerateWhere value state
    let (cells, state) ← lpGenerateBranches next state
    some (.node .caseBranch (.node .caseBranchStatement plan0 plan1) cells, state)
  | .null, state => some (.null, state)
  | _, _ => none

def lpGenerateFirst : SqlStatement → OptimizerState → Generated
  | .columnList value _, state => lpGenerateWhere value state
  | _, _ => none

def lpColumnListToLp : SqlStatement → OptimizerState → Generated
  | .columnListAlias columnList _ _ _ next, state => do
    let (plan, state) ← lpGenerateFirst columnList state
    let (cells, state) ← lpColumnListToLp next state
    some (.node .columnList (.node .whereNode plan (.node .columnListAlias .null .null)) cells,
      state)
  | .null, state => some (.null, state)
  | _, _ => none

/-- A column of the ORDER BY: a reference to a column of the select list. -/
def lpGenerateOrderColumn : SqlStatement → OptimizerState → Generated
  | .columnList value .null, state => lpGenerateOrderColumn value state
  | .columnAlias column _, state => lpColumnListToLp column state
  | _, _ => none

def lpGenerateOrderBy : SqlStatement → OptimizerState → Generated
  | .columnListAlias columnList _ _ _ next, state =>
    orderCells (lpGenerateOrderColumn columnList) (next.columnCount + 1) state
  | .null, state => some (.null, state)
  | _, _ => none

def generateSource : SqlStatement → OptimizerState → Generated
  | .tableAlias table aliasName uniqueId columnList, state =>
    match table.storedTable with
    | some _ => some (.table ⟨tableOf uniqueId, uniqueId⟩, state)
    | none => generateSelect table aliasName uniqueId columnList state
  | _, _ => none

/-- The join of the tables of a FROM clause, and their conditions. -/
def generateTables : SqlStatement → LogicalPlan → OptimizerState →
    Option ((LogicalPlan × LogicalPlan) × OptimizerState)
  | .join type value condition next, conditions, state => do
    if type = .tableSpec then none
    let (source, state) ← generateSource value state
    let (plan, state) ← lpGenerateWhere condition state
    let ((tableJoin, conditions), state) ← generateTables next (lpJoinWhere plan conditions) state
    some ((.node .tableJoin source tableJoin, conditions), state)
  | .null, conditions, state => some ((.null, conditions), state)
  | _, _, _ => none

/-- `generate_logical_plan` on a `table_alias`; its outer joins are replaced
first. -/
def generateSelect : SqlStatement → SqlStatement → ℕ → SqlStatement → OptimizerState → Generated
  | .select selectList tableList whereExpression orderExpression optionalWords
      setOperation, aliasName, uniqueId, columnList, state => do
    if tableList.firstOuter.isSome then
      generateOuter ⟨selectList, tableList, whereExpression, orderExpression,
        optionalWords, setOperation, aliasName, uniqueId, columnList⟩ state
    else
      let (whereCond, state) ← lpGenerateWhere whereExpression state
      let output := outputKey state.counter
      let state := { state with counter := state.counter + 1 }
      let (orderBy, state) ← lpGenerateOrderBy orderExpression state
      let ((tableJoin, conditions), state) ← generateTables tableList .null state
      let (columns, state) ← lpColumnListToLp selectList state
      let parts ← replaceDerived tableList tableJoin
        ⟨columns, lpJoinWhere whereCond conditions, orderBy⟩
      some (.insert parts.columns tableJoin parts.whereCond parts.orderBy []
        (selectKeywords optionalWords) output, state)
  | _, _, _, _, _ => none

def generateLogicalPlan : SqlStatement → OptimizerState → Generated
  | .setOperation option operand0 operand1, state => do
    let (plan0, state) ← generateLogicalPlan operand0 state
    let (plan1, state) ← generateLogicalPlan operand1 state
    let key ← lpGetOutputKey plan0
    some (.setOperation option (lpUpdatePlanKeys key plan0) (lpUpdatePlanKeys key plan1), state)
  | .tableAlias table aliasName uniqueId columnList, state =>
    generateSelect table aliasName uniqueId columnList state
  | _, _ => none

end

-- The equations are made here, not by the proofs that wait for them.
attribute [local simp] lpGenerateWhere lpGenerateValues

end Generator

end Octo
