/-
Fixing keys from the equalities of a WHERE.  An equality on a key column fixes
that key; one on any other column of a stored table replaces the table by a
cross reference plan, and its keys by one for the column and those of the plan.
-/
import Octo.LogicalPlan

namespace Octo

/-- `counter` is the plan's next unique id.  `copies` numbers the calls of
`lp_copy_plan`, so that each copy has addresses of its own. -/
structure OptimizerState where
  counter : Nat
  copies : Nat
deriving DecidableEq, Repr

/-- A run of `optimize_logical_plan`. -/
abbrev Optimizer :=
  LogicalPlan → OptimizerState → Option (LogicalPlan × OptimizerState)

/-- One key for each key column of a table, as `join_tables` and
`lp_generate_xref_keys` append them. -/
def tableKeys (table : SqlTable) (uniqueId : Nat)
    (outputKey : Option CrossReferenceKey) : List SqlKey :=
  table.keyColumns.zipIdx.map fun (column, keyNum) =>
    { keyColumn := some ⟨table, column⟩
      keyNum := keyNum
      uniqueId := uniqueId
      value := none
      type := .advance
      isCrossReferenceKey := false
      crossReferenceOutputKey := outputKey }

def lpMakeKey (ref : SqlColumnAlias) : SqlKey where
  keyColumn := some ⟨ref.tableAlias.table, ref.column⟩
  keyNum := -1
  uniqueId := ref.tableAlias.uniqueId
  value := none
  type := .advance
  isCrossReferenceKey := false
  crossReferenceOutputKey := none

/-- Keys are matched by unique id, table name and column name. -/
def SqlKey.isFor (key : SqlKey) (ref : SqlColumnAlias) : Bool :=
  key.uniqueId == ref.tableAlias.uniqueId && match key.keyColumn with
    | none => false
    | some keyColumn =>
      keyColumn.table.tableName == ref.tableAlias.table.tableName &&
        keyColumn.column.columnName == ref.column.columnName

/-- `lp_get_key`, as the position of the key. -/
def lpGetKey (keys : List SqlKey) (ref : SqlColumnAlias) : Option Nat :=
  keys.findIdx? (·.isFor ref)

/-- `lp_get_key_index`: -2 at the first output key, -1 at the end. -/
def lpGetKeyIndex (ref : SqlColumnAlias) : List SqlKey → Nat → Int
  | [], _ => -1
  | key :: rest, index =>
    if key.keyColumn = none then -2
    else if key.isFor ref then index
    else lpGetKeyIndex ref rest (index + 1)

/-- `lp_verify_valid_for_key_fix` for an equality of two columns; it lets
every other equality of values and columns through. -/
def lpVerifyValidForKeyFix (keys : List SqlKey) (left right : SqlColumnAlias) :
    Bool :=
  let i1 := lpGetKeyIndex left keys 0
  let i2 := lpGetKeyIndex right keys 0
  if i1 = -1 ∧ i2 = -1 then false
  else if (i1 = -1 ∨ i2 = -1) ∧ left.tableAlias.uniqueId = right.tableAlias.uniqueId then false
  else !(i1 == -2 || i2 == -2)

/-- `lp_opt_fix_key_to_const`: keys that are already fixed or that are part of
a cross reference iteration stay as they are. -/
def lpOptFixKeyToConst (value : KeyValue) (key : SqlKey) : SqlKey :=
  if key.type = .advance ∧ key.crossReferenceOutputKey = none then
    { key with value := some value, type := .fix }
  else key

/-- The scan of `lp_generate_xref_keys` for the table to replace. -/
def joinsTable (uniqueId : Nat) : LogicalPlan → Bool
  | .node _ (.table ref) next =>
    ref.uniqueId == uniqueId || joinsTable uniqueId next
  | .node _ _ next => joinsTable uniqueId next
  | _ => false

def replaceTable (uniqueId : Nat) (plan : LogicalPlan) : LogicalPlan → LogicalPlan
  | .node type (.table ref) next =>
    if ref.uniqueId = uniqueId then .node type plan next
    else .node type (.table ref) (replaceTable uniqueId plan next)
  | .node type source next =>
    .node type source (replaceTable uniqueId plan next)
  | other => other

/-- The columns of a cross reference plan, one LP_COLUMN_LIST cell each. -/
def xrefColumnList (tableAlias : SqlTableAlias) : List SqlColumn → LogicalPlan
  | [] => .null
  | column :: rest =>
    .node .columnList (.node .whereNode (.columnAlias ⟨tableAlias, column⟩) .null)
      (xrefColumnList tableAlias rest)

/-- The plan that fills the cross reference for a column. -/
def xrefPlan (table : SqlTable) (column : SqlColumn) (uniqueId newId : Nat) : LogicalPlan :=
  .insert (xrefColumnList ⟨table, newId⟩ (column :: table.keyColumns))
    (.node .tableJoin (.table ⟨table, newId⟩) .null) .null .null [] [.populateIndex]
    { keyColumn := some ⟨table, column⟩
      keyNum := 0
      uniqueId := uniqueId
      value := none
      type := .unset
      isCrossReferenceKey := true
      crossReferenceOutputKey := none }

def lpGenerateXrefPlan (optimize : Optimizer) (table : SqlTable)
    (column : SqlColumn) (uniqueId : Nat) (state : OptimizerState) :
    Option (LogicalPlan × OptimizerState) :=
  optimize (xrefPlan table column uniqueId state.counter)
    { state with counter := state.counter + 1 }

/-- Put the fixed key and the cross reference keys in the place of the keys of
a table.  What follows that table is hung below the first of the cross
reference keys, so the others are lost when there is anything to hang. -/
def spliceXrefKeys (uniqueId : Nat) (columnKey : SqlKey)
    (xrefKeys keys : List SqlKey) : List SqlKey :=
  let before := keys.takeWhile (·.uniqueId != uniqueId)
  match keys.dropWhile (·.uniqueId != uniqueId) with
  -- without a key of the table the scan stops at the last key
  | [] => before.dropLast ++ columnKey :: xrefKeys
  | first :: rest =>
    match (first :: rest).dropWhile (·.uniqueId == uniqueId) with
    | [] => before ++ columnKey :: xrefKeys
    | after => before ++ columnKey :: xrefKeys.take 1 ++ after

/-- The part of a SELECT plan that fixing keys rewrites. -/
structure Criteria where
  tableJoin : LogicalPlan
  keys : List SqlKey
  state : OptimizerState
deriving DecidableEq, Repr

/-- Fix the key for a column, through a cross reference if the column is not a
key. -/
def fixColumn (optimize : Optimizer) (ref : SqlColumnAlias) (value : KeyValue)
    (criteria : Criteria) : Option Criteria :=
  match lpGetKey criteria.keys ref with
  | some index =>
    some { criteria with
      keys := criteria.keys.modify index (lpOptFixKeyToConst value) }
  | none =>
    let table := ref.tableAlias.table
    let uniqueId := ref.tableAlias.uniqueId
    if joinsTable uniqueId criteria.tableJoin then do
      let (plan, state) ← lpGenerateXrefPlan optimize table ref.column uniqueId criteria.state
      let columnKey := { lpMakeKey ref with isCrossReferenceKey := true }
      let xrefKeys :=
        tableKeys table uniqueId (some ⟨table, ref.column, uniqueId⟩)
      some
        { tableJoin := replaceTable uniqueId plan criteria.tableJoin
          keys := spliceXrefKeys uniqueId
            (lpOptFixKeyToConst value columnKey) xrefKeys criteria.keys
          state := state }
    else some criteria

/-- Which column an equality of the WHERE fixes, and to what; an inner `none`
if it fixes nothing.  `order` is `key_unique_id_array`: an id with order 0
comes in from a parent query, and counts as the highest. -/
def equalityFix (order : Nat → Nat) (criteria : Criteria)
    (left right : LogicalPlan) : Option (Option (SqlColumnAlias × KeyValue)) :=
  match left, right with
  | .columnAlias left, .columnAlias right =>
    let leftId := left.tableAlias.uniqueId
    let rightId := right.tableAlias.uniqueId
    if lpVerifyValidForKeyFix criteria.keys left right = false then some none
    else if ¬(leftId < criteria.state.counter ∧ rightId < criteria.state.counter) then none
    else if order leftId = 0 ∧ order rightId = 0 then some none
    else if order rightId = 0 ∨ order leftId < order rightId then
      some (some (right, .columnAlias left))
    else some (some (left, .columnAlias right))
  | .value left, .columnAlias right =>
    if order right.tableAlias.uniqueId = 0 then some none
    else some (some (right, .value left))
  | .columnAlias left, .value right =>
    if order left.tableAlias.uniqueId = 0 then some none
    else some (some (left, .value right))
  | _, _ => some none

def fixEquals (optimize : Optimizer) (order : Nat → Nat)
    (left right : LogicalPlan) (criteria : Criteria) : Option Criteria :=
  match equalityFix order criteria left right with
  | none => none
  | some none => some criteria
  | some (some (ref, value)) => fixColumn optimize ref value criteria

def lpOptimizeWhereMultiEqualAndsHelper (optimize : Optimizer)
    (order : Nat → Nat) : LogicalPlan → Criteria → Option Criteria
  | .node type operand0 operand1, criteria =>
    if type = .booleanOr then none
    else if type = .booleanAnd then do
      let criteria ← lpOptimizeWhereMultiEqualAndsHelper optimize order operand0 criteria
      lpOptimizeWhereMultiEqualAndsHelper optimize order operand1 criteria
    else if type = .booleanEquals then
      fixEquals optimize order operand0 operand1 criteria
    else some criteria
  | _, criteria => some criteria

/-- `key_unique_id_array`: the position, from 1, of the last key of an id. -/
def keyUniqueIdArray (keys : List SqlKey) : Nat → Nat :=
  (keys.zipIdx 1).foldl (fun order (key, index) id =>
      if id = key.uniqueId then index else order id)
    (fun _ => 0)

/-- `lp_optimize_where_multi_equal_ands`.  The array is filled once, before
any key is fixed. -/
def lpOptimizeWhereMultiEqualAnds (optimize : Optimizer)
    (whereCond : LogicalPlan) (criteria : Criteria) : Option Criteria :=
  if criteria.keys = [] then none
  else lpOptimizeWhereMultiEqualAndsHelper optimize
    (keyUniqueIdArray criteria.keys) whereCond criteria

end Octo
