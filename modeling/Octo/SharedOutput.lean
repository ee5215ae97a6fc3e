/-
The table a set operation writes to.  Every SELECT of the tree gets an output
key of its own, and each set operation above it then gives the key of its
first SELECT to all of them.  The optimiser splits a SELECT into copies, which
keep the key.
-/
import Octo.GeneratePlan
import Octo.JoinedKeys

namespace Octo

open Option

/-- Every leaf of the tree is an LP_INSERT, and all of them write to one
table. -/
def WritesTo (uniqueId : ℕ) (keyNum : ℤ) : LogicalPlan → Prop
  | .insert _ _ _ _ _ _ output => output.uniqueId = uniqueId ∧ output.keyNum = keyNum
  | .setOperation _ plan0 plan1 =>
    WritesTo uniqueId keyNum plan0 ∧ WritesTo uniqueId keyNum plan1
  | _ => False

section Output

variable {uniqueId : ℕ} {keyNum : ℤ} {plan newPlan : LogicalPlan}

theorem WritesTo.output (hplan : WritesTo uniqueId keyNum plan) : ∃ key,
    lpGetOutputKey plan = some key ∧ key.uniqueId = uniqueId ∧ key.keyNum = keyNum := by
  induction plan with
  | insert columns tableJoin whereCond orderBy keys keywords output => exact ⟨output, rfl, hplan⟩
  | setOperation option plan0 plan1 ih => exact ih hplan.1
  | _ => exact hplan.elim

theorem WritesTo.update (key : SqlKey) (hplan : WritesTo uniqueId keyNum plan) :
    WritesTo key.uniqueId key.keyNum (lpUpdatePlanKeys key plan) := by
  induction plan with
  | insert => exact ⟨rfl, rfl⟩
  | setOperation option plan0 plan1 ih0 ih1 => exact ⟨ih0 hplan.1, ih1 hplan.2⟩
  | _ => exact hplan.elim

theorem WritesTo.copy (copy : ℕ) (hplan : WritesTo uniqueId keyNum plan) :
    WritesTo uniqueId keyNum (lpCopyPlan copy plan) := by
  induction plan with
  | insert => exact hplan
  | setOperation option plan0 plan1 ih0 ih1 => exact ⟨ih0 hplan.1, ih1 hplan.2⟩
  | _ => exact hplan.elim

theorem WritesTo.setWhere (arm : LogicalPlan) (hplan : WritesTo uniqueId keyNum plan) :
    WritesTo uniqueId keyNum (setWhere arm plan) := by
  cases plan <;> exact hplan

theorem WritesTo.expandArms (hplan : WritesTo uniqueId keyNum plan) (arms : List LogicalPlan)
    (hnew : WritesTo uniqueId keyNum newPlan) (copies : ℕ) :
    WritesTo uniqueId keyNum (expandArms plan arms newPlan copies).1 := by
  induction arms generalizing newPlan copies with
  | nil => exact hnew
  | cons arm arms ih =>
    have hunion : WritesTo uniqueId keyNum (.setOperation .unionAll newPlan
      (Octo.setWhere arm (lpCopyPlan copies plan))) := ⟨hnew, (hplan.copy copies).setWhere arm⟩
    exact ih hunion _

/-- The optimiser keeps the table, also where it splits a SELECT. -/
theorem WritesTo.optimize {fuel : ℕ} {state later : OptimizerState}
    (hplan : WritesTo uniqueId keyNum plan)
    (hrun : optimizeLogicalPlan fuel plan state = some (newPlan, later)) :
    WritesTo uniqueId keyNum newPlan := by
  induction fuel generalizing plan state newPlan later with
  | zero => cases hrun
  | succ fuel ih =>
    cases plan with
    | setOperation option plan0 plan1 =>
      simp only [optimizeLogicalPlan, bind_some_iff, some.injEq, Prod.mk.injEq] at hrun
      obtain ⟨left, hleft, right, hright, rfl, -⟩ := hrun
      exact ⟨ih hplan.1 hleft, ih hplan.2 hright⟩
    | insert columns tableJoin whereCond orderBy keys keywords output =>
      simp only [optimizeLogicalPlan, bind_some_iff, expandOrFix] at hrun
      obtain ⟨⟨join, keys, middle⟩, -, cond, -, hrun⟩ := hrun
      split at hrun
      · simp only [bind_some_iff, some.injEq, Prod.mk.injEq] at hrun
        obtain ⟨criteria, -, rfl, -⟩ := hrun
        exact hplan
      · refine ih (WritesTo.expandArms ?_ _ ?_ _) hrun
        · exact hplan
        · exact hplan
    | _ => exact hplan.elim

end Output

section Generator

variable (tableOf : ℕ → SqlTable) (optimize : Optimizer)

section Outer

variable {tableOf optimize} {generateOuter : SelectQuery → OptimizerState → Generated}
  {state later : OptimizerState} {plan : LogicalPlan}
  (houter : ∀ query state plan later, generateOuter query state = some (plan, later) →
    ∃ uniqueId keyNum, WritesTo uniqueId keyNum plan)
include houter

theorem generateSelect_writesTo {table aliasName columnList : SqlStatement} {uniqueId : ℕ}
    (hrun : generateSelect tableOf optimize generateOuter table aliasName uniqueId columnList
      state = some (plan, later)) : ∃ uniqueId keyNum, WritesTo uniqueId keyNum plan := by
  cases table with
  | select selectList tableList whereExpression orderExpression optionalWords setOperation =>
    rw [generateSelect] at hrun
    split_ifs at hrun
    · exact houter _ _ _ _ hrun
    · simp only [bind_some_iff, some.injEq, Prod.mk.injEq] at hrun
      obtain ⟨cond, -, orderBy, -, tables, -, columns, -, parts, -, rfl, -⟩ := hrun
      exact ⟨_, _, rfl, rfl⟩
  | _ => simp [generateSelect] at hrun

theorem generateLogicalPlan_writesTo (statement : SqlStatement)
    (hrun : generateLogicalPlan tableOf optimize generateOuter statement state =
      some (plan, later)) : ∃ uniqueId keyNum, WritesTo uniqueId keyNum plan := by
  induction statement generalizing state plan later with
  | setOperation option operand0 operand1 ih0 ih1 =>
    simp only [generateLogicalPlan, bind_some_iff, some.injEq, Prod.mk.injEq] at hrun
    obtain ⟨left, hleft, right, hright, key, -, rfl, -⟩ := hrun
    obtain ⟨_, _, hleft⟩ := ih0 hleft
    obtain ⟨_, _, hright⟩ := ih1 hright
    exact ⟨_, _, hleft.update key, hright.update key⟩
  | tableAlias table aliasName uniqueId columnList =>
    exact generateSelect_writesTo houter hrun
  | _ => simp [generateLogicalPlan] at hrun

end Outer

/-- `generate_logical_plan` on a SELECT with outer joins: the statement without
the first of them is planned. -/
def generateOuterPlan (shared : Bool) : ℕ → SelectQuery → OptimizerState → Generated
  | 0, _, _ => none
  | depth + 1, query, state => do
    let (statement, counter) ← generateOuterJoin shared query state.counter
    generateLogicalPlan tableOf optimize (generateOuterPlan shared depth) statement
      { state with counter := counter }

theorem generateOuterPlan_writesTo (shared : Bool) (depth : ℕ) (query : SelectQuery)
    (state : OptimizerState) (plan : LogicalPlan) (later : OptimizerState)
    (hrun : generateOuterPlan tableOf optimize shared depth query state = some (plan, later)) :
    ∃ uniqueId keyNum, WritesTo uniqueId keyNum plan := by
  induction depth generalizing query state plan later with
  | zero => cases hrun
  | succ depth ih =>
    simp only [generateOuterPlan, bind_some_iff] at hrun
    obtain ⟨rewritten, -, hrun⟩ := hrun
    exact generateLogicalPlan_writesTo ih _ hrun

/-- All SELECTs of a set operation write to one table, and its key is the one
read by the query around it, before and after the optimiser. -/
theorem set_operation_writes_to_one_table (shared : Bool) (depth : ℕ) (option : SetOption)
    (operand0 operand1 : SqlStatement) {state later : OptimizerState} {plan : LogicalPlan}
    (hrun : generateLogicalPlan tableOf optimize (generateOuterPlan tableOf optimize shared depth)
      (.setOperation option operand0 operand1) state = some (plan, later)) :
    ∃ key, lpGetOutputKey plan = some key ∧ WritesTo key.uniqueId key.keyNum plan ∧
      ∀ fuel before plan' after, optimizeLogicalPlan fuel plan before = some (plan', after) →
        lpGetOutputKey plan' = some key ∧ WritesTo key.uniqueId key.keyNum plan' := by
  obtain ⟨uniqueId, keyNum, hplan⟩ := generateLogicalPlan_writesTo
    (generateOuterPlan_writesTo tableOf optimize shared depth) _ hrun
  obtain ⟨key, hkey, rfl, rfl⟩ := hplan.output
  refine ⟨key, hkey, hplan, ?_⟩
  intro fuel before plan' after hafter
  exact ⟨(optimizeLogicalPlan_source hafter).1.trans hkey, hplan.optimize hafter⟩

end Generator

namespace SharedExample

def idTable (_ : ℕ) : SqlTable := ⟨"T", [⟨"id"⟩], [⟨"id"⟩], idColumn_ne_nil⟩

/-- SELECT … FROM a JOIN b, with a join of either kind. -/
def select (type : JoinType) : SqlStatement :=
  let stored label id := SqlStatement.tableAlias (.table (.name label .unknown) .null .null)
    .null id .null
  .tableAlias (.select .null (.join .noJoin (stored "a" 1) .null
    (.join type (stored "b" 2) .null .null)) .null .null .null .null) .null 3 .null

def generate : SqlStatement → OptimizerState → Generated :=
  generateLogicalPlan idTable (optimizeLogicalPlan 2)
    (generateOuterPlan idTable (optimizeLogicalPlan 2) true 1)

end SharedExample

open SharedExample in
/-- A UNION with a left join in it, which is a set operation itself. -/
theorem nested_union_writes_to_one_table : ∃ plan plan' uniqueId keyNum,
    (generate (.setOperation .union (select .crossJoin) (select .leftJoin)) ⟨4, 0⟩).map Prod.fst =
      some plan ∧ (optimizeLogicalPlan 4 plan ⟨9, 0⟩).map Prod.fst = some plan' ∧
    WritesTo uniqueId keyNum plan ∧ WritesTo uniqueId keyNum plan' := by
  obtain ⟨key, -, hplan, hafter⟩ := set_operation_writes_to_one_table idTable
    (optimizeLogicalPlan 2) true 1 _ _ _ (rfl : generate (.setOperation .union
      (select .crossJoin) (select .leftJoin)) ⟨4, 0⟩ = some (_, _))
  exact ⟨_, _, _, _, rfl, rfl, hplan, (hafter 4 ⟨9, 0⟩ _ _ rfl).2⟩

end Octo
