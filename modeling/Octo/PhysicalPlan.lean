/-
The planner.  `generate_physical_plan` turns a logical plan into a list of
physical plans.  Sub-queries are found by walking the WHERE and the first
column of a plan; the field that holds one is overwritten with its output key,
so a field that is reached again is not planned again.
-/
import Octo.VerifyStructure

namespace Octo

inductive PPActionType
  | project | delete | advance
deriving DecidableEq, Repr

inductive PPSetOperation
  | notSet | union | except | intersect
deriving DecidableEq, Repr

/-- A physical plan.  `id` stands for its address. -/
structure PhysicalPlan where
  id : Nat
  outputKey : SqlKey
  parentPlan : Option Nat
  iterKeys : List SqlKey
  whereCond : LogicalPlan
  projection : LogicalPlan
  orderBy : LogicalPlan
  keywords : List OptionalKeyword
  stashColumnsInKeys : Bool
  isCrossReferenceKey : Bool
  maintainColumnwiseIndex : Bool
  distinctValues : Bool
  actionType : PPActionType
  setOperation : PPSetOperation
  deferredPlan : Bool
  emitDuplicationCheck : Bool
deriving DecidableEq, Repr

structure PhysicalPlanOptions where
  parent : Option Nat
  stashColumnsInKeys : Bool
deriving DecidableEq, Repr

/-- `plans` is the list from its first to its last plan.  `walked` holds the
fields that were overwritten, each with the plan whose output key it got. -/
structure PlannerState where
  plans : List PhysicalPlan
  nextId : Nat
  walked : List (Slot × Nat)
deriving DecidableEq, Repr

namespace PlannerState

def empty : PlannerState := ⟨[], 0, []⟩

/-- Write through the address of a plan. -/
def modify (state : PlannerState) (id : Nat)
    (change : PhysicalPlan → PhysicalPlan) : PlannerState :=
  { state with
    plans := state.plans.map fun plan =>
      if plan.id = id then change plan else plan }

def find? (state : PlannerState) (id : Nat) : Option PhysicalPlan :=
  state.plans.find? (·.id == id)

end PlannerState

def SetOption.setOperation : SetOption → PPSetOperation
  | .union | .unionAll => .union
  | .except | .exceptAll => .except
  | .intersect | .intersectAll => .intersect

def SetOption.actionType : SetOption → PPActionType
  | .union | .unionAll => .project
  | _ => .delete

/-- Set operations without ALL keep the resulting rows unique. -/
def SetOption.isDistinct : SetOption → Bool
  | .union | .except | .intersect => true
  | _ => false

/-- Both plans of a set operation keep an index, and unique rows if it is not
an ALL. -/
def keepIndex (option : SetOption) (plan : PhysicalPlan) : PhysicalPlan :=
  { plan with
    distinctValues := plan.distinctValues || option.isDistinct
    maintainColumnwiseIndex := true }

/-- Switch what the second plan of a set operation does. -/
def secondOperand (option : SetOption) (plan : PhysicalPlan) : PhysicalPlan :=
  { keepIndex option plan with
    setOperation := option.setOperation
    actionType := option.actionType }

def markSetOperation (option : SetOption) (out prev : Nat) (state : PlannerState) : PlannerState :=
  (state.modify out (secondOperand option)).modify prev (keepIndex option)

/-- The loop over `iterKeys` with the bound of another plan.  Reading past the
last key of the plan dereferences NULL. -/
def scanIterKeys (uniqueId : Nat) : Nat → List SqlKey → Nat → Option Nat
  | 0, _, index => some index
  | _ + 1, [], _ => none
  | bound + 1, key :: rest, index =>
    if key.uniqueId = uniqueId then some index
    else scanIterKeys uniqueId bound rest (index + 1)

/-- Mark the plans from `cur` up as deferred until one iterates the table of a
column.  Every parent was made before its children, so `fuel` above the
address of `cur` is enough. -/
def markDeferred (uniqueId bound : Nat) : Nat → Option Nat → PlannerState → Option PlannerState
  | _, none, state => some state
  | 0, some _, _ => none
  | fuel + 1, some cur, state => do
    let plan ← state.find? cur
    let index ← scanIterKeys uniqueId bound plan.iterKeys 0
    if index ≠ plan.iterKeys.length then some state
    else
      markDeferred uniqueId bound fuel plan.parentPlan
        (state.modify cur fun plan => { plan with deferredPlan := true })

/-- A reference to a column, met while walking for plan `out`. -/
def walkColumnAlias (ref : SqlColumnAlias) (out : Nat)
    (state : PlannerState) : Option PlannerState := do
  let plan ← state.find? out
  markDeferred ref.tableAlias.uniqueId plan.iterKeys.length state.nextId (some out) state

def walksBoth (type : LPActionType) : Bool :=
  (decide (LPActionType.addition.ctorIdx ≤ type.ctorIdx) &&
      decide (type.ctorIdx ≤ LPActionType.booleanNotIn.ctorIdx)) ||
    type == .functionCall || type == .columnList || type == .caseNode ||
    type == .caseStatement || type == .caseBranch ||
    type == .caseBranchStatement

def walksFirst (type : LPActionType) : Bool :=
  type == .forceNum || type == .negative || type == .booleanNot || type == .whereNode

def newPlan (id : Nat) (options : PhysicalPlanOptions) (output : SqlKey)
    (orderBy : LogicalPlan) : PhysicalPlan where
  id := id
  outputKey := output
  parentPlan := options.parent
  iterKeys := []
  whereCond := .null
  projection := .null
  orderBy := orderBy
  keywords := []
  stashColumnsInKeys := false
  isCrossReferenceKey := output.isCrossReferenceKey
  maintainColumnwiseIndex := false
  distinctValues := false
  actionType := .project
  setOperation := .notSet
  deferredPlan := false
  emitDuplicationCheck := false

/-- What is filled in once the WHERE and the first column are walked. -/
def completePlan (options : PhysicalPlanOptions)
    (whereCond columns : LogicalPlan) (keywords : List OptionalKeyword)
    (plan : PhysicalPlan) : PhysicalPlan :=
  { plan with
    whereCond := whereCond
    projection := columns
    keywords := keywords
    distinctValues := plan.distinctValues || decide (.distinct ∈ keywords)
    maintainColumnwiseIndex :=
      plan.maintainColumnwiseIndex || decide (.distinct ∈ keywords)
    emitDuplicationCheck := decide (.partOfExpansion ∈ keywords)
    stashColumnsInKeys := options.stashColumnsInKeys }

mutual

/-- `generate_physical_plan`; the result is the address of the plan it
returns. -/
def generatePhysicalPlan : LogicalPlan → PhysicalPlanOptions → PlannerState →
    Option (Nat × PlannerState)
  | .setOperation option plan0 plan1, options, state => do
    let (out, state) ← generatePhysicalPlan plan1 options state
    let (prev, state) ← generatePhysicalPlan plan0 options state
    some (prev, markSetOperation option out prev state)
  | .insert columns tableJoin whereCond orderBy keys keywords output, options, state => do
    -- "Bad plan!"
    if !(LogicalPlan.insert columns tableJoin whereCond orderBy keys keywords
      output).lpVerifyStructure then none
    let id := state.nextId
    let current := { options with parent := some id }
    let state ← generateSources tableJoin current
      { state with
        plans := newPlan id options output orderBy :: state.plans
        nextId := id + 1 }
    if keys = [] then none
    let state := state.modify id fun plan => { plan with iterKeys := keys }
    let state ← walkWhereStatement whereCond id current state
    let state ← walkFirstColumn columns id current state
    some (id, state.modify id (completePlan options whereCond columns keywords))
  | _, _, _ => none

/-- The plans for the derived tables of an LP_TABLE_JOIN. -/
def generateSources : LogicalPlan → PhysicalPlanOptions → PlannerState → Option PlannerState
  | .null, _, state => some state
  | .node .tableJoin .null _, _, state => some state
  | .node .tableJoin (.table _) next, options, state =>
    generateSources next options state
  | .node .tableJoin source next, options, state => do
    let (_, state) ← generatePhysicalPlan source options state
    generateSources next options state
  | _, _, _ => none

/-- `walk_where_statement` for plan `out`. -/
def walkWhereStatement : LogicalPlan → Nat → PhysicalPlanOptions →
    PlannerState → Option PlannerState
  | .null, _, _, state => some state
  | .value _, _, _, state => some state
  | .key _, _, _, state => some state
  | .derivedColumn _ _, _, _, state => some state
  | .columnAlias ref, out, _, state => walkColumnAlias ref out state
  | .subquery slot plan, _, options, state =>
    -- a field that was overwritten holds an LP_KEY
    if slot ∈ state.walked.map Prod.fst then some state
    else do
      let (id, state) ← generatePhysicalPlan plan
        { options with stashColumnsInKeys := true } state
      some { state with walked := (slot, id) :: state.walked }
  | .node type operand0 operand1, out, options, state =>
    if walksBoth type then do
      let state ← walkWhereStatement operand0 out options state
      walkWhereStatement operand1 out options state
    else if walksFirst type then
      walkWhereStatement operand0 out options state
    else none
  | _, _, _, _ => none

def walkFirstColumn : LogicalPlan → Nat → PhysicalPlanOptions → PlannerState → Option PlannerState
  | .node _ column _, out, options, state =>
    walkWhereStatement column out options state
  | _, _, _, _ => none

end

end Octo
