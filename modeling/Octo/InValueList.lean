/-
IN and NOT IN with a list of values.  The grammar makes a list cell without a
value for an empty list, and the rest behind a last comma is an empty list too.
`lp_generate_where` compares with every cell, so such a cell becomes a
comparison that has no second operand.
-/
import Octo.GeneratePlan

namespace Octo

open List
open Option hiding all_eq_true

namespace SqlStatement

/-- There is nothing to make a plan of. -/
def isMissing : SqlStatement → Bool
  | null => true
  | calculated inner _ => isMissing inner
  | _ => false

end SqlStatement

abbrev PresentStatement :=
  { statement : SqlStatement // statement.isMissing = false }

/-- `in_value_list`, with its `in_value_list_tail`. -/
inductive InValueList
  | empty
  | last (value : PresentStatement)
  | comma (value : PresentStatement) (rest : InValueList)

namespace InValueList

/-- The list of columns that the grammar makes. -/
def statement : InValueList → SqlStatement
  | empty => .columnList .null .null
  | last value => .columnList value.1 .null
  | comma value rest => .columnList value.1 rest.statement

/-- The list is not empty and does not end with a comma. -/
def isComplete : InValueList → Bool
  | empty => false
  | last _ => true
  | comma _ rest => rest.isComplete

end InValueList

inductive Membership
  | isIn | isNotIn
deriving DecidableEq, Repr

namespace Membership

def operation : Membership → BinaryOperation
  | isIn => .booleanIn
  | isNotIn => .booleanNotIn

def comparison : Membership → LPActionType
  | isIn => .booleanEquals
  | isNotIn => .booleanNotEquals

def connective : Membership → LPActionType
  | isIn => .booleanOr
  | isNotIn => .booleanAnd

/-- What the predicate says of a value and a list of values. -/
def truth {V : Type} [DecidableEq V] : Membership → V → List V → Bool
  | isIn, x, values => values.any (· = x)
  | isNotIn, x, values => values.all (· ≠ x)

end Membership

/-- No comparison of the condition lacks an operand. -/
def operandsPresent : LogicalPlan → Bool
  | .node .booleanOr operand0 operand1 =>
    operandsPresent operand0 && operandsPresent operand1
  | .node .booleanAnd operand0 operand1 =>
    operandsPresent operand0 && operandsPresent operand1
  | .node _ operand0 operand1 => operand0 ≠ .null && operand1 ≠ .null
  | plan => plan ≠ .null

/-- The truth value of comparisons put together by AND and OR, from the values
of what they compare. -/
def conditionTruth {V : Type} [DecidableEq V]
    (valueOf : LogicalPlan → Option V) : LogicalPlan → Option Bool
  | .node .booleanOr operand0 operand1 => do
    let first ← conditionTruth valueOf operand0
    let second ← conditionTruth valueOf operand1
    some (first || second)
  | .node .booleanAnd operand0 operand1 => do
    let first ← conditionTruth valueOf operand0
    let second ← conditionTruth valueOf operand1
    some (first && second)
  | .node .booleanEquals operand0 operand1 => do
    some (decide ((← valueOf operand0) = (← valueOf operand1)))
  | .node .booleanNotEquals operand0 operand1 => do
    some (decide ((← valueOf operand0) ≠ (← valueOf operand1)))
  | _ => none

/-- The plan has all operands, and whenever the operand and the listed values
have a value its truth value is that of the predicate. -/
def DecidesMembership (membership : Membership) (operand : LogicalPlan)
    (listed : List LogicalPlan) (plan : LogicalPlan) : Prop :=
  operandsPresent plan = true ∧
    ∀ (V : Type) [DecidableEq V] (valueOf : LogicalPlan → Option V) (x : V)
    (values : List V), valueOf operand = some x → listed.map valueOf = values.map some →
    conditionTruth valueOf plan = some (membership.truth x values)

section Plans

variable (membership : Membership) {operand : LogicalPlan}

theorem operandsPresent_connective (first second : LogicalPlan) :
    operandsPresent (.node membership.connective first second) =
      (operandsPresent first && operandsPresent second) := by
  cases membership <;> rfl

theorem operandsPresent_comparison (hoperand : operand ≠ .null) (value : LogicalPlan) :
    operandsPresent (.node membership.comparison operand value) =
      decide (value ≠ .null) := by
  cases membership <;> simp [Membership.comparison, operandsPresent, hoperand]

variable {plans : List LogicalPlan}

/-- The comparisons, from the last one to the first. -/
theorem inListPlan_induction {P : List LogicalPlan → LogicalPlan → Prop}
    {comparison connective : LPActionType}
    (hone : ∀ value, P [value] (.node comparison operand value))
    (hmore : ∀ value plans plan, P plans plan → P (plans ++ [value])
    (.node connective (.node comparison operand value) plan)) (hplans : plans ≠ []) :
    P plans (inListPlan comparison connective operand plans) := by
  cases plans with
  | nil => exact absurd rfl hplans
  | cons first rest =>
    rw [inListPlan]
    induction rest using List.reverseRecOn with
    | nil => exact hone first
    | append_singleton rest value ih =>
      rw [foldl_append, ← cons_append]
      exact hmore value _ _ (ih (cons_ne_nil _ _))

theorem operandsPresent_inListPlan (hoperand : operand ≠ .null) (hplans : plans ≠ []) :
    operandsPresent (inListPlan membership.comparison membership.connective
    operand plans) = plans.all (· ≠ .null) := by
  apply inListPlan_induction (P := fun plans plan =>
    operandsPresent plan = plans.all (· ≠ .null)) _ _ hplans
  · intro value
    rw [operandsPresent_comparison membership hoperand]
    simp
  · intro value plans plan ih
    rw [operandsPresent_connective, ih, operandsPresent_comparison membership hoperand]
    simp [Bool.and_comm]

variable {V : Type} [DecidableEq V] {valueOf : LogicalPlan → Option V} {x : V}

theorem conditionTruth_comparison (hx : valueOf operand = some x)
    {plan : LogicalPlan} {value : V} (hvalue : valueOf plan = some value) :
    conditionTruth valueOf (.node membership.comparison operand plan) =
      some (membership.truth x [value]) := by
  cases membership <;>
    simp [Membership.comparison, conditionTruth, hx, hvalue, Membership.truth, eq_comm]

theorem conditionTruth_inListPlan (hx : valueOf operand = some x) (hplans : plans ≠ [])
    (values : List V) (hvalues : plans.map valueOf = values.map some) :
    conditionTruth valueOf (inListPlan membership.comparison membership.connective operand plans) =
    some (membership.truth x values) := by
  revert values
  apply inListPlan_induction (P := fun plans plan => ∀ values : List V,
    plans.map valueOf = values.map some →
      conditionTruth valueOf plan = some (membership.truth x values)) _ _ hplans
  · intro plan values hvalues
    obtain ⟨value, rfl, hvalue⟩ := map_eq_singleton_iff.mp hvalues.symm
    exact conditionTruth_comparison membership hx hvalue.symm
  · intro plan plans rest ih values hvalues
    rw [map_append, map_singleton, eq_comm, map_eq_append_iff] at hvalues
    obtain ⟨before, last, rfl, hbefore, hlast⟩ := hvalues
    obtain ⟨value, rfl, hvalue⟩ := map_eq_singleton_iff.mp hlast
    have hfirst := conditionTruth_comparison membership hx hvalue.symm
    have hsecond := ih before hbefore.symm
    cases membership with
    | isIn => simp_all [Membership.connective, conditionTruth, Membership.truth, Bool.or_comm]
    | isNotIn => simp_all [Membership.connective, conditionTruth, Membership.truth, Bool.and_comm]

end Plans

theorem inListPlan_ne_null (comparison connective : LPActionType)
    (operand : LogicalPlan) {plans : List LogicalPlan} (hplans : plans ≠ []) :
    inListPlan comparison connective operand plans ≠ .null := by
  apply inListPlan_induction (P := fun _ plan => plan ≠ .null) _ _ hplans
  · exact fun _ => nofun
  · exact fun _ _ _ _ => nofun

theorem binaryPlan_ne_null (operation : BinaryOperation) (operand0 operand1 : LogicalPlan) :
    binaryPlan operation operand0 operand1 ≠ .null := by
  unfold binaryPlan regexToEquals
  split_ifs
  · split
    · split
      · split_ifs
        · nofun
        · nofun
      · nofun
    · nofun
  · nofun

section Generated

variable {tableOf : ℕ → SqlTable} {optimize : Optimizer}
  {generateOuter : SelectQuery → OptimizerState → Generated}

variable {later state : OptimizerState} {plans : List LogicalPlan}

theorem lpGenerateValues_ne_nil {list : SqlStatement} (hlist : list.isColumnList = true)
    (hplans : lpGenerateValues tableOf optimize generateOuter list state = some (plans, later)) :
    plans ≠ [] := by
  cases list with
  | columnList value next =>
    simp only [lpGenerateValues, bind_eq_bind,
      bind_eq_some_iff, some.injEq, Prod.mk.injEq] at hplans
    obtain ⟨first, -, rest, -, rfl, -⟩ := hplans
    exact cons_ne_nil _ _
  | _ => cases hlist

/-- A statement that is there becomes a plan. -/
theorem lpGenerateWhere_ne_null {statement : SqlStatement} (hpresent : statement.isMissing = false)
    {plan : LogicalPlan} (hplan : lpGenerateWhere tableOf optimize generateOuter statement state =
    some (plan, later)) : plan ≠ .null := by
  induction statement generalizing state later plan with
  | null => cases hpresent
  | calculated inner dataType ih =>
    exact ih hpresent hplan
  | binary operation operand0 operand1 _ _ =>
    simp only [lpGenerateWhere, bind_eq_bind, bind_eq_some_iff] at hplan
    obtain ⟨first, -, hplan⟩ := hplan
    split_ifs at hplan with hlist hlist <;>
      simp only [bind_eq_some_iff, some.injEq, Prod.mk.injEq] at hplan
    iterate 2
      · rw [Bool.and_eq_true] at hlist
        obtain ⟨values, hvalues, rfl, -⟩ := hplan
        exact inListPlan_ne_null _ _ _ (lpGenerateValues_ne_nil hlist.1 hvalues)
    · obtain ⟨second, -, rfl, -⟩ := hplan
      exact binaryPlan_ne_null _ _ _
  | _ =>
    -- The other statements give nodes of another kind, or no plan at all.
    rintro rfl
    simp [lpGenerateWhere, bind_eq_some_iff] at hplan

/-- The cells of a list without a value are those the grammar leaves empty. -/
theorem all_ne_null_lpGenerateValues {list : InValueList}
    (hplans : lpGenerateValues tableOf optimize generateOuter list.statement
    state = some (plans, later)) : plans.all (· ≠ .null) = list.isComplete := by
  induction list generalizing state plans with
  | empty =>
    simp only [InValueList.statement, lpGenerateValues, lpGenerateWhere, bind_eq_bind,
      bind_some, some.injEq, Prod.mk.injEq] at hplans
    rw [← hplans.1]
    rfl
  | last value =>
    simp only [InValueList.statement, lpGenerateValues, bind_eq_bind,
      bind_eq_some_iff, bind_some, some.injEq, Prod.mk.injEq] at hplans
    obtain ⟨⟨first, state0⟩, hfirst, rfl, -⟩ := hplans
    simp [lpGenerateWhere_ne_null value.2 hfirst, InValueList.isComplete]
  | comma value rest ih =>
    simp only [InValueList.statement, lpGenerateValues, bind_eq_bind,
      bind_eq_some_iff, some.injEq, Prod.mk.injEq] at hplans
    obtain ⟨⟨first, state0⟩, hfirst, ⟨others, state1⟩, hothers, rfl, rfl⟩ :=
      hplans
    rw [all_cons, ih hothers]
    simp [lpGenerateWhere_ne_null value.2 hfirst, InValueList.isComplete]

theorem InValueList.isColumnList_statement (list : InValueList) :
    list.statement.isColumnList = true := by
  cases list <;> rfl

/-- Where the operand and the values of the list become plans, so does the
predicate.  It has all operands and the right truth value exactly if the list
is not empty and does not end with a comma. -/
theorem inValueList_decides_iff (membership : Membership) (operand : PresentStatement)
    (list : InValueList) {state middle later : OptimizerState} {operandPlan : LogicalPlan}
    {plans : List LogicalPlan} (hoperand : lpGenerateWhere tableOf optimize generateOuter operand.1
    state = some (operandPlan, middle))
    (hplans : lpGenerateValues tableOf optimize generateOuter list.statement
    middle = some (plans, later)) : ∃ plan, lpGenerateWhere tableOf optimize generateOuter
    (.binary membership.operation operand.1 list.statement) state = some (plan, later) ∧
    (DecidesMembership membership operandPlan (plans.filter (· ≠ .null))
    plan ↔ list.isComplete = true) := by
  have hne := lpGenerateWhere_ne_null operand.2 hoperand
  have hlist := list.isColumnList_statement
  have hcells := lpGenerateValues_ne_nil hlist hplans
  refine ⟨inListPlan membership.comparison membership.connective operandPlan plans, ?_, ?_⟩
  · cases membership with
    | isIn | isNotIn =>
      simp [lpGenerateWhere, hoperand, hlist, hplans, Membership.operation,
        Membership.comparison, Membership.connective]
  · rw [DecidesMembership, operandsPresent_inListPlan membership hne hcells,
      all_ne_null_lpGenerateValues hplans]
    constructor
    · exact fun hdecides => hdecides.1
    · intro hcomplete
      refine ⟨hcomplete, ?_⟩
      intro V _ valueOf x values hx hvalues
      have hall := all_ne_null_lpGenerateValues hplans
      rw [hcomplete, all_eq_true] at hall
      rw [filter_eq_self.mpr hall] at hvalues
      exact conditionTruth_inListPlan membership hx hcells values hvalues

end Generated

namespace InListExample

def number (text : String) : PresentStatement :=
  ⟨.value ⟨.numberLiteral, text⟩ .unknown, rfl⟩

def numberPlan (text : String) : LogicalPlan :=
  .value ⟨.numberLiteral, text⟩

def tableOf : ℕ → SqlTable := fun _ => ⟨"t", [⟨"id"⟩], [⟨"id"⟩], idColumn_ne_nil⟩

def optimize : Optimizer := fun plan state => some (plan, state)

def generateOuter : SelectQuery → OptimizerState → Generated :=
  fun _ _ => none

/-- `1, 2` -/
def pair : InValueList := .comma (number "1") (.last (number "2"))

/-- `1,` -/
def trailing : InValueList := .comma (number "1") .empty

end InListExample

open InListExample in
theorem inValueList_decides_pair : ∃ plan, lpGenerateWhere tableOf optimize generateOuter
    (.binary .booleanNotIn (number "3").1 pair.statement) ⟨0, 0⟩ = some (plan, ⟨0, 0⟩) ∧
    DecidesMembership .isNotIn (numberPlan "3") [numberPlan "1", numberPlan "2"] plan := by
  have hoperand : lpGenerateWhere tableOf optimize generateOuter
      (number "3").1 ⟨0, 0⟩ = some (numberPlan "3", ⟨0, 0⟩) := by
    simp [number, lpGenerateWhere, numberPlan]
  have hplans : lpGenerateValues tableOf optimize generateOuter pair.statement ⟨0, 0⟩ =
      some ([numberPlan "1", numberPlan "2"], ⟨0, 0⟩) := by
    simp [pair, InValueList.statement, number, lpGenerateValues, lpGenerateWhere, numberPlan]
  obtain ⟨plan, hplan, hiff⟩ := inValueList_decides_iff .isNotIn (number "3") pair hoperand hplans
  exact ⟨plan, hplan, hiff.mpr rfl⟩

open InListExample in
/-- `3 IN ()` and `3 IN (1,)` have a comparison without a second operand. -/
theorem comparison_without_operand : lpGenerateWhere tableOf optimize generateOuter
    (.binary .booleanIn (number "3").1 InValueList.empty.statement)
    ⟨0, 0⟩ = some (.node .booleanEquals (numberPlan "3") .null, ⟨0, 0⟩) ∧
    ¬ DecidesMembership .isIn (numberPlan "3") [] (.node .booleanEquals (numberPlan "3") .null) ∧
    lpGenerateWhere tableOf optimize generateOuter
    (.binary .booleanIn (number "3").1 trailing.statement) ⟨0, 0⟩ =
    some (.node .booleanOr (.node .booleanEquals (numberPlan "3") .null)
    (.node .booleanEquals (numberPlan "3") (numberPlan "1")), ⟨0, 0⟩) ∧
    ¬ DecidesMembership .isIn (numberPlan "3") [numberPlan "1"]
    (.node .booleanOr (.node .booleanEquals (numberPlan "3") .null)
    (.node .booleanEquals (numberPlan "3") (numberPlan "1"))) := by
  refine ⟨?_, ?_, ?_, ?_⟩
  · simp [number, InValueList.statement, lpGenerateWhere, lpGenerateValues,
      SqlStatement.isColumnList, inListPlan, numberPlan]
  · exact fun hdecides => Bool.false_ne_true hdecides.1
  · simp [number, trailing, InValueList.statement, lpGenerateWhere,
      lpGenerateValues, SqlStatement.isColumnList, inListPlan, numberPlan]
  · exact fun hdecides => Bool.false_ne_true hdecides.1

end Octo
