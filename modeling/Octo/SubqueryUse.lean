/-
The sub-queries a plan reads.  A sub-query is known by the field that holds
it.  The planner walks the fields in the WHERE and in the first column of each
SELECT; those in later columns it misses.
-/
import Octo.OptimizePlan
import Octo.PlanList

namespace Octo

/-- The fields of the sub-queries an expression reads. -/
def readSlots : LogicalPlan → List Slot
  | .subquery slot _ => [slot]
  | .node type operand0 operand1 =>
    if walksBoth type then readSlots operand0 ++ readSlots operand1
    else if walksFirst type then readSlots operand0
    else []
  | _ => []

/-- The outputs of derived tables an expression reads. -/
def readKeys : LogicalPlan → List Nat
  | .key key => [key.uniqueId]
  | .derivedColumn key _ => [key.uniqueId]
  | .node type operand0 operand1 =>
    if walksBoth type then readKeys operand0 ++ readKeys operand1
    else if walksFirst type then readKeys operand0
    else []
  | _ => []

/-- The first column and the list of the others. -/
def projectionSlots : LogicalPlan → List Slot
  | .node _ column next => readSlots column ++ readSlots next
  | _ => []

def projectionKeys : LogicalPlan → List Nat
  | .node _ column next => readKeys column ++ readKeys next
  | _ => []

/-- The outputs of the derived tables in an LP_TABLE_JOIN. -/
def sourceOutputs : LogicalPlan → List Nat
  | .node .tableJoin .null _ => []
  | .node .tableJoin (.table _) next => sourceOutputs next
  | .node .tableJoin source next =>
    ((lpGetOutputKey source).map SqlKey.uniqueId).toList ++ sourceOutputs next
  | _ => []

/-- What a part of a plan reads: the fields that are walked, those that are
missed, whether the walked fields occur once or in different operands of a set
operation only, and whether derived columns come from the FROM beside them. -/
structure SubqueryUse where
  walked : List Slot
  missed : List Slot
  apart : Bool
  owned : Bool
deriving DecidableEq, Repr

namespace SubqueryUse

def none : SubqueryUse := ⟨[], [], true, true⟩

def beside (first second : SubqueryUse) : SubqueryUse where
  walked := first.walked ++ second.walked
  missed := first.missed ++ second.missed
  apart := first.apart && second.apart &&
    decide (∀ slot ∈ first.walked, slot ∉ second.walked)
  owned := first.owned && second.owned

def operands (first second : SubqueryUse) : SubqueryUse where
  walked := first.walked ++ second.walked
  missed := first.missed ++ second.missed
  apart := first.apart && second.apart
  owned := first.owned && second.owned

def field (slot : Slot) (inner : SubqueryUse) : SubqueryUse where
  walked := slot :: inner.walked
  missed := inner.missed
  apart := inner.apart && decide (slot ∉ inner.walked)
  owned := inner.owned

@[simp] theorem none_operands (use : SubqueryUse) : none.operands use = use := rfl

@[simp] theorem operands_none (use : SubqueryUse) :
    use.operands none = use := by
  simp [operands, none]

/-- A SELECT with sub-queries in later columns. -/
def select (parts : SubqueryUse) (later : List Slot) (owned : Bool) : SubqueryUse where
  walked := parts.walked
  missed := parts.missed ++ later
  apart := parts.apart
  owned := parts.owned && owned

end SubqueryUse

mutual

def planUse : LogicalPlan → SubqueryUse
  | .setOperation _ plan0 plan1 => (planUse plan1).operands (planUse plan0)
  | .insert (.node type column next) tableJoin whereCond _ _ _ _ =>
    (((sourceUse tableJoin).beside (walkUse whereCond)).beside
      (walkUse column)).select (readSlots next) (decide (∀ key ∈ readKeys whereCond ++
      projectionKeys (.node type column next), key ∈ sourceOutputs tableJoin))
  | _ => .none

def sourceUse : LogicalPlan → SubqueryUse
  | .node .tableJoin .null _ => .none
  | .node .tableJoin (.table _) next => sourceUse next
  | .node .tableJoin source next => (planUse source).beside (sourceUse next)
  | _ => .none

def walkUse : LogicalPlan → SubqueryUse
  | .subquery slot plan => .field slot (planUse plan)
  | .node type operand0 operand1 =>
    if walksBoth type then (walkUse operand0).beside (walkUse operand1)
    else if walksFirst type then walkUse operand0
    else .none
  | _ => .none

end

variable {source : LogicalPlan}

theorem sourceUse_plan (hnull : source ≠ .null) (htable : ∀ ref, source ≠ .table ref)
    (next : LogicalPlan) : sourceUse (.node .tableJoin source next) =
    (planUse source).beside (sourceUse next) := by
  rw [sourceUse]
  · exact hnull
  · exact htable

/-- The fields an expression reads are walked. -/
theorem readSlots_subset_walked (expr : LogicalPlan) : readSlots expr ⊆ (walkUse expr).walked := by
  induction expr with
  | subquery slot plan _ => simp [readSlots, walkUse, SubqueryUse.field]
  | node type operand0 operand1 ih0 ih1 =>
    rw [readSlots, walkUse]
    split_ifs
    · exact List.append_subset.mpr ⟨fun _ h => List.mem_append_left _ (ih0 h),
          fun _ h => List.mem_append_right _ (ih1 h)⟩
    · exact ih0
    · exact List.nil_subset _
  | _ => simp [readSlots]

end Octo
