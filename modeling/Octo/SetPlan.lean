/-
The plans of a set expression.  The planner gives each SELECT of a tree of set
operations one plan per arm, in the order of the tree, and records every
operation on the first plan of its second operand.
-/
import Octo.OrExpansion
import Octo.Plannable
import Octo.SetExact

namespace Octo

open LogicalPlan List PhysicalPlan

abbrev Row := List String

/-- The plans that write to one output, in list order. -/
def outputPlans (uniqueId : Nat) (state : PlannerState) : List PhysicalPlan :=
  (state.plans.map PhysicalPlan.settled).filter (·.outputKey.uniqueId == uniqueId)

def PhysicalPlan.step (plan : PhysicalPlan) : PPSetOperation × Bool :=
  (plan.setOperation, plan.distinctValues)

/-- What the rows of a plan are read from. -/
def PhysicalPlan.source (plan : PhysicalPlan) : List SqlKey × LogicalPlan × LogicalPlan :=
  (plan.iterKeys, plan.whereCond, plan.projection)

def selectSource : LogicalPlan → List SqlKey × LogicalPlan × LogicalPlan
  | .insert columns _ whereCond _ keys _ _ => (keys, whereCond, columns)
  | _ => ([], .null, .null)

/-- A SELECT that writes to `uniqueId`. -/
inductive SelectPlan (uniqueId : Nat) (distinct : Bool) : LogicalPlan → Prop
  | insert {columns tableJoin whereCond orderBy : LogicalPlan}
      {keys : List SqlKey} {keywords : List OptionalKeyword} {output : SqlKey}
      (houtput : output.uniqueId = uniqueId)
      (hdistinct : distinct = decide (.distinct ∈ keywords)) :
      SelectPlan uniqueId distinct (.insert columns tableJoin whereCond
        orderBy keys keywords output)

/-- The outputs of the plans inside a SELECT. -/
def innerIds : LogicalPlan → List Nat
  | .insert columns tableJoin whereCond _ _ _ _ =>
    outputIds tableJoin ++ outputIds whereCond ++ outputIds columns
  | _ => []

/-- No plan inside the SELECTs of a plan writes to `uniqueId`. -/
def Apart (uniqueId : Nat) (plan : LogicalPlan) : Prop :=
  ∀ leaf ∈ leaves plan, uniqueId ∉ innerIds leaf

def selectOrder : LogicalPlan → LogicalPlan
  | .insert _ _ _ orderBy _ _ _ => orderBy
  | _ => .null

/-- Besides, no SELECT has an ORDER BY, whose loops number the rows anew. -/
structure ApartUnordered (uniqueId : Nat) (plan : LogicalPlan) : Prop where
  apart : Apart uniqueId plan
  unordered : ∀ leaf ∈ leaves plan, selectOrder leaf = .null

/-- A plan of a set expression, any SELECT of which may have been split by the
optimiser into arms. -/
inductive Realises (uniqueId : Nat) : SetExpr → LogicalPlan → Prop
  | select {distinct : Bool} {arms : Nat} {plan : LogicalPlan}
      (hplan : SetTree (· = .unionAll) (SelectPlan uniqueId distinct) plan)
      (harms : (leaves plan).length = arms + 1) : Realises uniqueId (.select distinct arms) plan
  | setOperation {option : SetOption} {left right : SetExpr}
      {plan0 plan1 : LogicalPlan} (hleft : Realises uniqueId left plan0)
      (hright : Realises uniqueId right plan1) : Realises uniqueId (.setOperation option left right)
      (.setOperation option plan0 plan1)

variable {uniqueId : Nat} {plan0 plan1 : LogicalPlan}

theorem Apart.setOperation {option : SetOption}
    (hapart : Apart uniqueId (.setOperation option plan0 plan1)) :
    Apart uniqueId plan0 ∧ Apart uniqueId plan1 :=
  ⟨fun leaf hleaf => hapart leaf (mem_append_left _ hleaf),
    fun leaf hleaf => hapart leaf (mem_append_right _ hleaf)⟩

variable {fuel id uniqueId : Nat} {distinct : Bool} {plan result : LogicalPlan}
  {later state : PlannerState} {expr : SetExpr} {options : PhysicalPlanOptions}

section OutputPlans

variable {uniqueId : Nat} {state later : PlannerState}

theorem PlannerState.Fresh.outputPlans_descending (hfresh : state.Fresh)
    (uniqueId : Nat) : Descending (outputPlans uniqueId state) :=
  (state.fresh_iff_settled.mp hfresh).1.sublist filter_sublist

/-- Plans with other outputs are not seen. -/
theorem Grows.outputPlans_eq {outputs : List Nat} (hgrows : Grows outputs state later)
    (hmem : uniqueId ∉ outputs) : outputPlans uniqueId later = outputPlans uniqueId state := by
  obtain ⟨_, ⟨new, hnew, _, hids⟩, _⟩ := hgrows
  rw [outputPlans, hnew, filter_append, ← outputPlans]
  have hnone : new.filter (·.outputKey.uniqueId == uniqueId) = [] := by
    rw [filter_eq_nil_iff]
    intro plan hplan heq
    have := (hids plan hplan).2.2
    rw [beq_iff_eq] at heq
    exact hmem (heq ▸ this)
  rw [hnone, nil_append]

theorem outputPlans_allocate (state : PlannerState) (options : PhysicalPlanOptions)
    (output : SqlKey) (orderBy : LogicalPlan) :
    outputPlans output.uniqueId (state.allocate options output orderBy) =
    newPlan state.nextId options output orderBy :: outputPlans output.uniqueId state := by
  simp only [outputPlans, PlannerState.allocate, map_cons]
  rw [filter_cons_of_pos]
  · rfl
  · simp [settled, newPlan]

variable {rest : List PhysicalPlan} {plan : PhysicalPlan} {change : PhysicalPlan → PhysicalPlan}

/-- A write to one plan of the output. -/
theorem outputPlans_modify (front : List PhysicalPlan) (hfresh : later.Fresh)
    (hplans : outputPlans uniqueId later = front ++ plan :: rest) (hkeeps : Keeps change)
    (hsettled : ∀ plan, (change plan).settled = (change plan.settled).settled) :
    outputPlans uniqueId (later.modify plan.id change) = front ++ (change plan).settled ::
    rest := by
  let update (old : PhysicalPlan) : PhysicalPlan :=
    if old.id = plan.id then (change old).settled else old
  have hmap : (later.modify plan.id change).plans.map settled =
      (later.plans.map settled).map update := by
    simp only [PlannerState.modify, map_map]
    apply map_congr_left
    intro old _
    have hold : old.settled.id = old.id := rfl
    by_cases heq : old.id = plan.id
    · simp [update, heq, hold, hsettled old]
    · simp [update, heq, hold]
  have hfilter : outputPlans uniqueId (later.modify plan.id change) =
      (outputPlans uniqueId later).map update := by
    rw [outputPlans, hmap, filter_map, outputPlans]
    congr 1
    apply filter_congr
    intro old _
    by_cases heq : old.id = plan.id <;>
      simp [update, heq, settled, hkeeps.outputKey]
  have hdescending := hfresh.outputPlans_descending uniqueId
  rw [hplans] at hdescending
  obtain ⟨_, hrest, hfront⟩ := pairwise_append.mp hdescending
  have hother : ∀ old, old ∈ front ∨ old ∈ rest → update old = old := by
    rintro old (hold | hold)
    · have := hfront old hold plan (by simp)
      simp only [update]
      rw [if_neg (by omega)]
    · have := (pairwise_cons.mp hrest).1 old hold
      simp only [update]
      rw [if_neg (by omega)]
  rw [hfilter, hplans, map_append, map_cons,
    map_congr_left fun old hold => hother old (Or.inl hold),
    map_congr_left fun old hold => hother old (Or.inr hold)]
  simp [update]

theorem outputPlans_modify_head (hfresh : later.Fresh)
    (hplans : outputPlans uniqueId later = plan :: rest) (hkeeps : Keeps change)
    (hsettled : ∀ plan, (change plan).settled = (change plan.settled).settled) :
    outputPlans uniqueId (later.modify plan.id change) = (change plan).settled :: rest :=
  outputPlans_modify [] hfresh hplans hkeeps hsettled

end OutputPlans

/-- The plans of a tree of SELECTs agree on where columns go, and all of them
keep the index if there are several. -/
structure Uniform (stash : Bool) (plan : LogicalPlan) (head : PhysicalPlan)
    (tail : List PhysicalPlan) : Prop where
  stash : ∀ planned ∈ head :: tail, planned.stashColumnsInKeys = stash
  tail : ∀ planned ∈ tail, planned.maintainColumnwiseIndex = true
  head : plan.type = .setOperation → head.maintainColumnwiseIndex = true

/-- Planning has put the plans of `plan` in front, the first of them at `id`,
without a set operation and distinct if `distinct` is set. -/
structure Planned (uniqueId : Nat) (plan : LogicalPlan) (stash distinct : Bool)
    (rest : List (PPSetOperation × Bool)) (state : PlannerState) (id : Nat)
    (later : PlannerState) : Prop where
  fresh : later.Fresh
  added : ∃ head tail, outputPlans uniqueId later = head :: tail ++ outputPlans uniqueId state ∧
    head.id = id ∧ head.step = (.notSet, distinct) ∧ tail.map PhysicalPlan.step = rest ∧
    (head :: tail).map PhysicalPlan.source = (leaves plan).map selectSource ∧
    Uniform stash plan head tail

theorem SelectPlan.planned (hplan : SelectPlan uniqueId distinct plan)
    (hapart : Apart uniqueId plan) (hfresh : state.Fresh)
    (hgen : generatePhysicalPlan plan options state = some (id, later)) :
    Planned uniqueId plan options.stashColumnsInKeys distinct [] state id
      later := by
  refine ⟨(generatePhysicalPlan_grows hfresh hgen).1.fresh hfresh, ?_⟩
  obtain ⟨rfl, rfl⟩ := hplan
  rename_i columns tableJoin whereCond orderBy keys keywords output
  have hinner := hapart _ (mem_singleton_self _)
  obtain ⟨state1, state2, state3, _, rfl, hsources, hwhere, hcolumns, rfl⟩ :=
    generatePhysicalPlan_insert hgen
  obtain ⟨type, column, next, rfl, hcolumn⟩ := walkFirstColumn_some hcolumns
  simp only [innerIds, outputIds, mem_append, not_or] at hinner
  obtain ⟨⟨hjoinIds, hwhereIds⟩, hcolumnIds, _⟩ := hinner
  -- the new plan stays the first of its output through all the steps
  have hfresh0 := (Grows.allocate state options output orderBy).fresh hfresh
  have hgrows1 := generateSources_grows hfresh0 hsources
  have hfresh1 := hgrows1.fresh hfresh0
  have houtput1 := hgrows1.outputPlans_eq hjoinIds
  rw [outputPlans_allocate] at houtput1
  have hkeys := outputPlans_modify_head hfresh1 houtput1 (keeps_setKeys keys) (fun _ => rfl)
  have hfreshKeys := hfresh1.modify state.nextId (keeps_setKeys keys)
  have hgrows2 := walkWhereStatement_grows hfreshKeys hwhere
  have houtput2 := (hgrows2.outputPlans_eq hwhereIds).trans hkeys
  have hgrows3 := walkWhereStatement_grows (hgrows2.fresh hfreshKeys) hcolumn
  have houtput3 := (hgrows3.outputPlans_eq hcolumnIds).trans houtput2
  have hlast := outputPlans_modify_head (hgrows3.fresh (hgrows2.fresh hfreshKeys)) houtput3
    (keeps_completePlan options whereCond (.node type column next) keywords) (fun _ => rfl)
  refine ⟨_, [], hlast, rfl, ?_, rfl, rfl, ?_, by simp, ?_⟩
  · simp [step, settled, completePlan, newPlan]
  · simp [settled, completePlan, newPlan]
  · intro hset
    cases hset

theorem Uniform.setOperation {stash : Bool} {head0 head1 : PhysicalPlan}
    {tail0 tail1 : List PhysicalPlan} (huniform0 : Uniform stash plan0 head0 tail0)
    (option : SetOption) (huniform1 : Uniform stash plan1 head1 tail1) :
    Uniform stash (.setOperation option plan0 plan1) (keepIndex option head0).settled
    (tail0 ++ (secondOperand option head1).settled :: tail1) := by
  refine ⟨?_, ?_, fun _ => rfl⟩
  · have hhead0 := huniform0.stash head0 (by simp)
    have hhead1 := huniform1.stash head1 (by simp)
    intro planned hplanned
    simp only [mem_cons, mem_append] at hplanned
    rcases hplanned with rfl | htail0 | rfl | htail1
    · exact hhead0
    · exact huniform0.stash planned (by simp [htail0])
    · exact hhead1
    · exact huniform1.stash planned (by simp [htail1])
  · intro planned hplanned
    simp only [mem_cons, mem_append] at hplanned
    rcases hplanned with htail0 | rfl | htail1
    · exact huniform0.tail planned htail0
    · rfl
    · exact huniform1.tail planned htail1

/-- A set operation writes to the first plans of its operands. -/
theorem Planned.setOperation (option : SetOption) {stash distinct0 distinct1 : Bool}
    {rest0 rest1 : List (PPSetOperation × Bool)} {state middle last : PlannerState} {out prev : Nat}
    (hplan1 : Planned uniqueId plan1 stash distinct1 rest1 state out middle)
    (hplan0 : Planned uniqueId plan0 stash distinct0 rest0 middle prev last) :
    Planned uniqueId (.setOperation option plan0 plan1) stash (distinct0 || option.isDistinct)
    (rest0 ++ (option.setOperation, distinct1 || option.isDistinct) :: rest1)
    state prev (markSetOperation option out prev last) := by
  obtain ⟨head1, tail1, hadded1, rfl, hstep1, rfl, hsource1, huniform1⟩ :=
    hplan1.added
  obtain ⟨head0, tail0, hadded0, rfl, hstep0, rfl, hsource0, huniform0⟩ :=
    hplan0.added
  rw [hadded1] at hadded0
  have hout := outputPlans_modify (head0 :: tail0) hplan0.fresh hadded0
    (keeps_secondOperand option) (fun _ => rfl)
  have hfreshOut := hplan0.fresh.modify head1.id (keeps_secondOperand option)
  have hprev := outputPlans_modify_head hfreshOut hout (keeps_keepIndex option) (fun _ => rfl)
  refine ⟨hfreshOut.modify head0.id (keeps_keepIndex option), (keepIndex option head0).settled,
    tail0 ++ (secondOperand option head1).settled :: tail1, ?_, rfl, ?_, ?_, ?_,
    huniform0.setOperation option huniform1⟩
  · rw [markSetOperation, hprev]
    simp
  · simp only [step, Prod.mk.injEq] at hstep0
    simp [step, settled, keepIndex, hstep0]
  · simp only [step, Prod.mk.injEq] at hstep1
    simp [step, settled, secondOperand, keepIndex, hstep1]
  · simp only [leaves, map_append, ← hsource0, ← hsource1, map_cons]
    rfl

/-- The arms of a SELECT. -/
theorem SetTree.planned (hplan : SetTree (· = .unionAll) (SelectPlan uniqueId distinct) plan)
    (hapart : Apart uniqueId plan) (hfresh : state.Fresh)
    (hgen : generatePhysicalPlan plan options state = some (id, later)) :
    ∃ arms, (leaves plan).length = arms + 1 ∧
    Planned uniqueId plan options.stashColumnsInKeys distinct
    (List.replicate arms (.union, distinct)) state id later := by
  induction hplan generalizing state id later with
  | leaf hleaf =>
    refine ⟨0, ?_, hleaf.planned hapart hfresh hgen⟩
    cases hleaf
    rfl
  | setOperation hok _ _ ih0 ih1 =>
    subst hok
    obtain ⟨out, middle, last, hgen1, hgen0, rfl⟩ :=
      generatePhysicalPlan_setOperation hgen
    obtain ⟨hapart0, hapart1⟩ := hapart.setOperation
    obtain ⟨arms1, hlength1, hplanned1⟩ := ih1 hapart1 hfresh hgen1
    obtain ⟨arms0, hlength0, hplanned0⟩ := ih0 hapart0 hplanned1.fresh hgen0
    refine ⟨arms0 + (arms1 + 1), ?_, ?_⟩
    · rw [leaves, length_append, hlength0, hlength1]
      omega
    · have hplanned := hplanned1.setOperation .unionAll hplanned0
      simpa [SetOption.isDistinct, SetOption.setOperation,
        ← replicate_succ, replicate_append_replicate] using hplanned

/-- The first step of an expression is the one an enclosing set operation
changes. -/
theorem SetExpr.steps_eq (expr : SetExpr) : ∃ distinct rest,
    ∀ operation force, expr.steps operation force = (operation, distinct || force) :: rest := by
  induction expr with
  | select distinct arms => exact ⟨distinct, _, fun _ _ => rfl⟩
  | setOperation option left right ihLeft ihRight =>
    obtain ⟨distinct, rest, hleft⟩ := ihLeft
    refine ⟨distinct || option.isDistinct,
      rest ++ right.steps option.setOperation option.isDistinct, ?_⟩
    intro operation force
    rw [SetExpr.steps, hleft, cons_append, Bool.or_assoc, Bool.or_comm force]

theorem Realises.planned (hplan : Realises uniqueId expr plan) (hapart : Apart uniqueId plan)
    (hfresh : state.Fresh) (hgen : generatePhysicalPlan plan options state = some (id, later)) :
    ∃ distinct rest, expr.steps .notSet false = (.notSet, distinct) :: rest ∧
    Planned uniqueId plan options.stashColumnsInKeys distinct rest state id
        later := by
  induction hplan generalizing state id later with
  | @select distinct arms plan htree harms =>
    obtain ⟨n, hlength, hplanned⟩ := htree.planned hapart hfresh hgen
    have heq : n = arms := by omega
    rw [heq] at hplanned
    exact ⟨distinct, _, by rw [SetExpr.steps, Bool.or_false], hplanned⟩
  | @setOperation option left right plan0 plan1 _ _ ihLeft ihRight =>
    obtain ⟨out, middle, last, hgen1, hgen0, rfl⟩ :=
      generatePhysicalPlan_setOperation hgen
    obtain ⟨hapart0, hapart1⟩ := hapart.setOperation
    obtain ⟨distinct1, rest1, hsteps1, hplanned1⟩ :=
      ihRight hapart1 hfresh hgen1
    obtain ⟨distinct0, rest0, hsteps0, hplanned0⟩ :=
      ihLeft hapart0 hplanned1.fresh hgen0
    refine ⟨_, _, ?_, hplanned1.setOperation option hplanned0⟩
    obtain ⟨first0, tail0, hleft⟩ := left.steps_eq
    obtain ⟨first1, tail1, hright⟩ := right.steps_eq
    simp only [hleft, hright, Bool.or_false, List.cons.injEq, Prod.mk.injEq,
      true_and] at hsteps0 hsteps1
    obtain ⟨rfl, rfl⟩ := hsteps0
    obtain ⟨rfl, rfl⟩ := hsteps1
    simp [SetExpr.steps, hleft, hright]

/-- The planner ends on a set expression.  The plans it builds stand in the
order of the SELECTs they are for, and running them gives what SQL has, for
all rows of the SELECTs, exactly if the expression is linear. -/
theorem generatePhysicalPlan_executes_iff {uniqueId : Nat} {expr : SetExpr} {plan : LogicalPlan}
    (hplan : Realises uniqueId expr plan) (hapart : Apart uniqueId plan)
    (options : PhysicalPlanOptions) : (plannable plan = true → ∃ id state,
    generatePhysicalPlan plan options .empty = some (id, state)) ∧
    ∀ id state, generatePhysicalPlan plan options .empty = some (id, state) →
    (outputPlans uniqueId state).map PhysicalPlan.source = (leaves plan).map selectSource ∧
    ((∀ rows : LeafRows (Multiset Row), execute ((outputPlans uniqueId state).map PhysicalPlan.step)
    (expr.armRows rows) 0 = expr.meaning rows) ↔ expr.isLinear = true) := by
  refine ⟨fun hends => (ends plan).generate options hends PlannerState.fresh_empty, ?_⟩
  intro id state hgen
  obtain ⟨distinct, rest, hsteps, hplanned⟩ :=
    hplan.planned hapart PlannerState.fresh_empty hgen
  obtain ⟨head, tail, hplans, _, hhead, htail, hsource, _⟩ := hplanned.added
  have hempty : outputPlans uniqueId .empty = [] := rfl
  rw [hempty, append_nil] at hplans
  rw [hplans]
  refine ⟨hsource, ?_⟩
  rw [map_cons, hhead, htail, ← hsteps]
  exact expr.execute_eq_meaning_iff

namespace SetPlanWitness

open OrExpansionWitness

/-- The key of `names`, fixed to a text if one is given. -/
def nameKey (fixed : Option String) : SqlKey where
  keyColumn := some ⟨names, ⟨"id"⟩⟩
  keyNum := 0
  uniqueId := 0
  value := fixed.map fun text => .value ⟨.stringLiteral, text⟩
  type := if fixed.isSome then .fix else .advance
  isCrossReferenceKey := false
  crossReferenceOutputKey := none

def planned (whereCond : LogicalPlan) (fixed : Option String)
    (keywords : List OptionalKeyword) : LogicalPlan :=
  .insert (.node .columnList (.node .whereNode (column "id") .null) .null)
    (.node .tableJoin (.table ⟨names, 0⟩) .null) whereCond .null [nameKey fixed] keywords outputKey

/-- `SELECT id FROM names` -/
def allNames : LogicalPlan := planned .null none []

/-- `SELECT id FROM names WHERE id = ...` -/
def oneName (text : String) : LogicalPlan :=
  planned (equals "id" text) (some text) [.partOfExpansion]

/-- `SELECT id FROM names EXCEPT
SELECT id FROM names WHERE id = '1' OR id = '2'` -/
def exceptOr : LogicalPlan :=
  .setOperation .except (select .null)
    (select (.node .booleanOr (equals "id" "1") (equals "id" "2")))

def exceptArms : LogicalPlan :=
  .setOperation .except allNames (.setOperation .unionAll (oneName "2") (oneName "1"))

/-- `names` holds `1` and `2`. -/
def nameRows : LeafRows (Multiset Row)
  | [false], _ => {["1"], ["2"]}
  | _, 0 => {["2"]}
  | _, _ => {["1"]}

theorem allNames_select : SelectPlan 1 false allNames :=
  .insert rfl rfl

theorem oneName_select (text : String) : SelectPlan 1 false (oneName text) :=
  .insert rfl rfl

end SetPlanWitness

open SetPlanWitness in
/-- The row `2` is taken away by the first arm, and `1` is added, not taken
away, by the second. -/
theorem except_or_adds_rows : optimizeLogicalPlan 8 exceptOr ⟨2, 0⟩ = some (exceptArms, ⟨2, 1⟩) ∧
    Realises 1 (.setOperation .except (.select false 0) (.select false 1)) exceptArms ∧
    ((generatePhysicalPlan exceptArms ⟨none, false⟩ .empty).map fun (_, state) =>
        execute ((outputPlans 1 state).map PhysicalPlan.step)
          ((SetExpr.setOperation .except (.select false 0) (.select false 1)).armRows nameRows) 0) =
      some {["1"], ["1"]} ∧
    (SetExpr.setOperation .except (.select false 0) (.select false 1)).meaning nameRows = 0 := by
  refine ⟨by decide, ?_, by decide, by decide⟩
  exact .setOperation (.select (.leaf allNames_select) rfl)
    (.select (.setOperation rfl (.leaf (oneName_select "2")) (.leaf (oneName_select "1"))) rfl)

open SetPlanWitness in
/-- `SELECT id FROM names EXCEPT SELECT id FROM names WHERE id = '1'` -/
theorem except_select_executes : (plannable (.setOperation .except allNames (oneName "1")) = true →
    ∃ id state, generatePhysicalPlan
    (.setOperation .except allNames (oneName "1")) ⟨none, false⟩ .empty = some (id, state)) ∧
    ∀ id state, generatePhysicalPlan
    (.setOperation .except allNames (oneName "1")) ⟨none, false⟩ .empty = some (id, state) →
    (outputPlans 1 state).map PhysicalPlan.source =
    (leaves (.setOperation .except allNames (oneName "1"))).map selectSource ∧
    ((∀ rows : LeafRows (Multiset Row), execute ((outputPlans 1 state).map PhysicalPlan.step)
    ((SetExpr.setOperation .except (.select false 0) (.select false 0)).armRows rows) 0 =
    (SetExpr.setOperation .except (.select false 0) (.select false 0)).meaning rows) ↔
    (SetExpr.setOperation .except (.select false 0) (.select false 0)).isLinear = true) := by
  refine generatePhysicalPlan_executes_iff ?_ ?_ _
  · exact .setOperation (.select (.leaf allNames_select) rfl)
      (.select (.leaf (oneName_select "1")) rfl)
  · unfold Apart
    decide

end Octo
