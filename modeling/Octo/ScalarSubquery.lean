/-
Scalar sub-queries.  In the WHERE and in the first column the sub-query is
replaced by its output key, printed as the node that holds the row counter.  In
later columns it stays a plan that nothing runs.
-/
import Octo.InSubquery
import Octo.PlanParents

namespace Octo

open GlobalTree Subscripts List Option Function

variable {σ : Type*} [Subscripts σ] {uniqueId : ℕ}

def keyValue (state : TrackedCursor σ) (key : SqlKey) : Option σ :=
  ((state.output key.uniqueId).get []).map fun value =>
    ofNat (Value.asNumber (some value))

/-- What a plan is printed as: `$O(key,"")`.  A set operation cannot be
printed. -/
def planValue (state : TrackedCursor σ) : LogicalPlan → Option σ
  | .insert _ _ _ _ _ _ output =>
    (state.output output.uniqueId).order [] none
  | _ => none

/-- What a sub-query is printed as in the WHERE or the columns of a plan, once
all plans are made. -/
def subqueryValue (planner : PlannerState) (state : TrackedCursor σ)
    (slot : Slot) (plan : LogicalPlan) : Option σ :=
  match planner.walked.lookup slot with
  | some id => (planner.find? id).bind fun planned =>
    keyValue state planned.outputKey
  | none => planValue state plan

def passedRows (plan : PhysicalPlan) : List (Found σ) → TrackedCursor σ → ℕ
  | [], _ => 0
  | found :: founds, state =>
    (if foundPasses plan found state then
        if plan.setOperation = .except then 0 else 1
      else 0) + passedRows plan founds (foundRow plan state found)

/-- The number of rows that plans count one after the other. -/
def passedCount : List (PhysicalPlan × List (Found σ)) → TrackedCursor σ → ℕ
  | [], _ => 0
  | step :: steps, state =>
    passedRows step.1 step.2
        { state with cursor := startPlan step.1 state.cursor } +
      passedCount steps (runFound step.1 step.2 state)

section Counter

variable {plan : PhysicalPlan} {count : ℕ} {cursor : Cursor σ}

/-- The root of a table after so many rows. -/
def counter : ℕ → Option (Value σ)
  | 0 => none
  | count + 1 => some (.number (count + 1))

omit [Subscripts σ] in
@[simp] theorem asNumber_counter (count : ℕ) :
    Value.asNumber (counter count : Option (Value σ)) = count := by
  cases count <;> rfl

def Counts (uniqueId count : ℕ) (cursor : Cursor σ) : Prop :=
  (cursor.output uniqueId).get [] = counter count

theorem Counts.increment (hcounts : Counts uniqueId count cursor) :
    (increment (cursor.output uniqueId) []).get [] = counter (count + 1) := by
  rw [Octo.increment, hcounts, asNumber_counter, Global.get_set_self]
  rfl

section

variable {columns : List σ} (hcounts : Counts uniqueId count cursor) (hplan : Stashes uniqueId plan)
  (hcolumns : columns ≠ [])
include hcounts hplan hcolumns

theorem Counts.projectRow : Counts uniqueId (count + 1) (projectRow plan columns cursor) := by
  obtain ⟨rfl, hstash⟩ := hplan
  simp only [Counts, Octo.projectRow, hstash, if_true, update_self]
  rw [Global.get_set_ne _ _ hcolumns.symm]
  exact hcounts.increment

/-- An EXCEPT does not count its rows. -/
theorem Counts.outputRow : Counts uniqueId (count + if plan.setOperation = .except then 0 else 1)
    (outputRow plan columns cursor) := by
  unfold Octo.outputRow
  cases hoperation : plan.setOperation with
  | except =>
    obtain ⟨rfl, _⟩ := hplan
    simp only [exceptRow]
    cases cursor.index.order columns none with
    | none => exact hcounts
    | some v =>
      simp only [Counts, update_self, Global.get_kill]
      exact hcounts
  | intersect =>
    obtain ⟨rfl, _⟩ := hplan
    simp only [Counts, intersectRow, update_self]
    exact hcounts.increment
  | notSet => exact hcounts.projectRow hplan hcolumns
  | union => exact hcounts.projectRow hplan hcolumns

end

variable {founds : List (Found σ)} {state : TrackedCursor σ}

theorem Counts.foundRows (hcounts : Counts uniqueId count state.cursor)
    (hplan : Stashes uniqueId plan) (hfounds : ∀ found ∈ founds, found.columns ≠ []) :
    Counts uniqueId (count + passedRows plan founds state)
    (founds.foldl (foundRow plan) state).cursor := by
  induction founds generalizing state count with
  | nil => exact hcounts
  | cons found founds ih =>
    have hrest : ∀ other ∈ founds, other.columns ≠ [] := fun other hother =>
      hfounds other (mem_cons_of_mem _ hother)
    rw [foldl_cons, passedRows, ← Nat.add_assoc]
    refine ih ?_ hrest
    unfold foundRow
    by_cases hpasses : foundPasses plan found state = true
    · rw [if_pos hpasses, if_pos hpasses]
      exact hcounts.outputRow hplan (hfounds found (by simp))
    · rw [if_neg hpasses, if_neg hpasses]
      exact hcounts

theorem Counts.deleteRemaining (hcounts : Counts uniqueId count cursor)
    (houtput : plan.outputKey.uniqueId = uniqueId) :
    Counts uniqueId count (deleteRemaining plan cursor) := by
  subst houtput
  unfold Octo.deleteRemaining
  generalize cursor.index.walkTwo cursor.index.nodes.length [] = paths
  induction paths generalizing cursor with
  | nil => exact hcounts
  | cons path paths ih =>
    rw [foldl_cons]
    refine ih ?_
    cases lastPiece path with
    | none => exact hcounts
    | some v =>
      simp only [Counts, Cursor.setOutput_output, Global.get_kill]
      exact hcounts

theorem Counts.runFound (hcounts : Counts uniqueId count (startPlan plan state.cursor))
    (hplan : Stashes uniqueId plan) (hfounds : ∀ found ∈ founds, found.columns ≠ []) :
    Counts uniqueId (count + passedRows plan founds
      { state with cursor := startPlan plan state.cursor })
      (runFound plan founds state).cursor := by
  have hrows : Counts uniqueId _ (founds.foldl (foundRow plan)
      { state with cursor := startPlan plan state.cursor }).cursor :=
    Counts.foundRows hcounts hplan hfounds
  unfold Octo.runFound
  split
  · exact hrows.deleteRemaining hplan.output
  · exact hrows

/-- The plans of a chain count the rows that pass. -/
theorem Counts.runFounds {steps : List (PhysicalPlan × List (Found σ))}
    (hsteps : ∀ step ∈ steps, Stashes uniqueId step.1 ∧
    step.1.setOperation ≠ .notSet ∧ ∀ found ∈ step.2, found.columns ≠ [])
    (hcounts : Counts uniqueId count state.cursor) :
    Counts uniqueId (count + passedCount steps state) (runFounds steps state).cursor := by
  induction steps generalizing state count with
  | nil => exact hcounts
  | cons step steps ih =>
    obtain ⟨hplan, hoperation, hfounds⟩ := hsteps step (by simp)
    have hstart : startPlan step.1 state.cursor = state.cursor :=
      if_neg hoperation
    have hrest := fun other hother =>
      hsteps other (mem_cons_of_mem _ hother)
    rw [passedCount, ← Nat.add_assoc]
    refine ih hrest (Counts.runFound ?_ hplan hfounds)
    rw [hstart]
    exact hcounts

end Counter

section Frame

variable {plan : PhysicalPlan} (hother : plan.outputKey.uniqueId ≠ uniqueId)
include hother

theorem setOutput_output_of_ne (cursor : Cursor σ) (table : Global σ (Value σ)) :
    (cursor.setOutput plan.outputKey.uniqueId table).output uniqueId = cursor.output uniqueId :=
  update_of_ne hother.symm _ _

theorem outputRow_output_of_ne (columns : List σ) (cursor : Cursor σ) :
    (outputRow plan columns cursor).output uniqueId = cursor.output uniqueId := by
  unfold outputRow
  split
  · unfold exceptRow
    split
    · rfl
    · exact update_of_ne hother.symm _ _
  all_goals exact update_of_ne hother.symm _ _

theorem runFound_output_of_ne (founds : List (Found σ)) (state : TrackedCursor σ) :
    (runFound plan founds state).output uniqueId = state.output uniqueId := by
  have hstart : (startPlan plan state.cursor).output uniqueId = state.output uniqueId := by
    unfold startPlan
    split
    · exact setOutput_output_of_ne hother _ _
    · rfl
  have hrows : ∀ state : TrackedCursor σ,
      (founds.foldl (foundRow plan) state).cursor.output uniqueId =
        state.cursor.output uniqueId := by
    induction founds with
    | nil => exact fun _ => rfl
    | cons found founds ih =>
      intro state
      rw [foldl_cons, ih, foundRow]
      split
      · exact outputRow_output_of_ne hother _ _
      · rfl
  have hdelete : ∀ cursor : Cursor σ, (deleteRemaining plan cursor).output uniqueId =
      cursor.output uniqueId := by
    intro cursor
    unfold deleteRemaining
    generalize cursor.index.walkTwo cursor.index.nodes.length [] = paths
    induction paths generalizing cursor with
    | nil => rfl
    | cons path paths ih =>
      rw [foldl_cons, ih]
      split
      · rfl
      · exact setOutput_output_of_ne hother _ _
  unfold runFound
  split
  · exact (hdelete _).trans ((hrows _).trans hstart)
  · exact (hrows _).trans hstart

end Frame

/-- Plans with other outputs leave a table as it is. -/
theorem runFounds_output_of_ne {steps : List (PhysicalPlan × List (Found σ))}
    (hsteps : ∀ step ∈ steps, step.1.outputKey.uniqueId ≠ uniqueId) (state : TrackedCursor σ) :
    (runFounds steps state).output uniqueId = state.output uniqueId := by
  induction steps generalizing state with
  | nil => rfl
  | cons step steps ih =>
    have hrest := ih (fun other hother =>
      hsteps other (mem_cons_of_mem _ hother))
      (runFound step.1 step.2 state)
    exact hrest.trans (runFound_output_of_ne (hsteps step (by simp)) _ _)

variable {expr : SetExpr} {plan : LogicalPlan} {slot : Slot}

/-- A walked sub-query is read as the key of its output. -/
theorem subqueryValue_walked (hplan : Realises uniqueId expr plan) (hapart : Apart uniqueId plan)
    {out : ℕ} {options : PhysicalPlanOptions} {planner later : PlannerState}
    (hfresh : planner.Fresh) (hslot : slot ∉ planner.slots)
    (hwalk : walkWhereStatement (.subquery slot plan) out options planner = some later)
    (state : TrackedCursor σ) : ∃ id middle, generatePhysicalPlan plan
        { options with stashColumnsInKeys := true } planner = some (id, middle) ∧
      outputPlans uniqueId later = outputPlans uniqueId middle ∧
      subqueryValue later state slot plan = ((state.output uniqueId).get []).map fun value =>
          ofNat (Value.asNumber (some value)) := by
  simp only [walkWhereStatement, PlannerState.slots] at hwalk hslot
  rw [if_neg hslot] at hwalk
  obtain ⟨⟨id, middle⟩, hgen, ⟨⟩⟩ := bind_eq_some_iff.mp hwalk
  refine ⟨id, middle, hgen, rfl, ?_⟩
  obtain ⟨_, _, _, hplanned⟩ := hplan.planned hapart hfresh hgen
  obtain ⟨head, tail, hplans, hid, _⟩ := hplanned.added
  have hhead : head ∈ outputPlans uniqueId middle := by simp [hplans]
  obtain ⟨hmem, houtput⟩ := mem_filter.mp hhead
  obtain ⟨planned, hold, rfl⟩ := mem_map.mp hmem
  have hfind : middle.find? id = some planned := by
    cases hfound : middle.find? id with
    | none =>
      have := find?_eq_none.mp hfound planned hold
      simp [← hid, PhysicalPlan.settled] at this
    | some other =>
      have hother := find?_some hfound
      rw [beq_iff_eq, ← hid] at hother
      exact congrArg some (hplanned.fresh.descending.eq_of_id_eq
        (mem_of_find?_eq_some hfound) hold hother)
  have hkey : planned.outputKey.uniqueId = uniqueId := beq_iff_eq.mp houtput
  simp only [subqueryValue, lookup_cons_self]
  change (middle.find? id).bind _ = _
  rw [hfind, bind_some, keyValue, hkey]

/-- The counter after the plans of a sub-query. -/
theorem counts_subquery {first : PhysicalPlan} {rest : List PhysicalPlan}
    (hstashes : ∀ plan ∈ first :: rest, Stashes uniqueId plan)
    (hfirst : first.setOperation = .notSet) (hrest : ∀ plan ∈ rest, plan.setOperation ≠ .notSet)
    {rows : LeafRows (List (Found σ))} (hrows : ∀ found ∈ expr.foundRows rows, found.columns ≠ [])
    (start : TrackedCursor σ) : Counts uniqueId
    (passedCount ((first :: rest).zip (expr.armRows rows)) start)
    (runFounds ((first :: rest).zip (expr.armRows rows)) start).cursor := by
  obtain ⟨founds, operands, hoperands⟩ := exists_armRows_cons expr rows
  have hcolumns : ∀ other ∈ founds :: operands, ∀ found ∈ other, found.columns ≠ [] := by
    intro other hother found hfound
    rw [← hoperands] at hother
    exact hrows found (mem_flatten.mpr ⟨other, hother, hfound⟩)
  have hplan := hstashes first (by simp)
  have hstart : Counts uniqueId 0 (startPlan first start.cursor) := by
    obtain ⟨rfl, _⟩ := hplan
    simp only [Counts, startPlan, if_pos hfirst, Cursor.setOutput_output,
      Global.get_kill, nil_prefix, if_true]
    rfl
  have hnext := Counts.runFound hstart hplan (hcolumns founds (by simp))
  rw [hoperands, zip_cons_cons, passedCount]
  rw [Nat.zero_add] at hnext
  refine Counts.runFounds ?_ hnext
  intro step hstep
  obtain ⟨hmem, hfounds⟩ := of_mem_zip hstep
  exact ⟨hstashes _ (mem_cons_of_mem _ hmem), hrest _ hmem, hcolumns _ (mem_cons_of_mem _ hfounds)⟩

/-- One tuple of a sub-query with one plan is counted once. -/
theorem passedCount_single {plan : PhysicalPlan} (hoperation : plan.setOperation = .notSet)
    {found : Found σ} {start : TrackedCursor σ} (hindex : start.cursor.index.data found.columns = 0)
    (hdupl : start.dupl.data found.tracked = 0) : passedCount [(plan, [found])] start = 1 := by
  have hstart : (startPlan plan start.cursor).index = start.cursor.index := by
    unfold startPlan
    split <;> rfl
  have hpasses : foundPasses plan found
      { start with cursor := startPlan plan start.cursor } = true := by
    simp [foundPasses, rowPasses, hstart, hindex, hdupl]
  simp [passedCount, passedRows, hpasses, hoperation]

section Missed

variable {type : LPActionType} {column next tableJoin whereCond orderBy : LogicalPlan}
  {keys : List SqlKey} {keywords : List OptionalKeyword} {output : SqlKey}
  {options : PhysicalPlanOptions} {id : ℕ} {later : PlannerState}

/-- No plan is made for a sub-query in a later column. -/
theorem outputKey_ne_of_missed
    (hgen : generatePhysicalPlan (.insert (.node type column next) tableJoin
      whereCond orderBy keys keywords output) options .empty = some (id, later))
    (houtput : uniqueId ∉ output.uniqueId ::
      (outputIds tableJoin ++ outputIds whereCond ++ outputIds column)) :
    ∀ plan ∈ later.plans, plan.outputKey.uniqueId ≠ uniqueId := by
  obtain ⟨state1, state2, state3, _, rfl, hsources, hwhere, hcolumns, rfl⟩ :=
    generatePhysicalPlan_insert hgen
  have hgrows := Grows.insert PlannerState.fresh_empty
    (fun hfresh => generateSources_grows hfresh hsources)
    (fun hfresh => walkWhereStatement_grows hfresh hwhere)
    (fun hfresh => walkWhereStatement_grows hfresh hcolumns) (.node type column next) keywords
  obtain ⟨new, hnew, _, hids⟩ := hgrows.added
  intro plan hplan heq
  have hmem := mem_map_of_mem (f := PhysicalPlan.settled) hplan
  rw [hnew, mem_append] at hmem
  rcases hmem with hmem | hmem
  · exact houtput (heq ▸ (hids _ hmem).2.2)
  · simp [PlannerState.empty] at hmem

end Missed

/-- The expression of a sub-query that the planner walks, in the WHERE or the
first column, has the value `v` exactly if `v` is the number of rows its plans
have counted; that number is 1 if the sub-query has one plan and this finds one
row.  The expression of a sub-query in a later column has the value `v` exactly
if `v` is the first subscript below its output before the query runs. -/
theorem scalar_subquery_value_iff {expr : SetExpr} {plan : LogicalPlan}
    (hplan : Realises uniqueId expr plan) (hapart : Apart uniqueId plan) (slot : Slot) :
    (∀ {out : ℕ} {options : PhysicalPlanOptions} {planner later : PlannerState},
    planner.Fresh → outputPlans uniqueId planner = [] → slot ∉ planner.slots →
    walkWhereStatement (.subquery slot plan) out options planner = some later →
    ∀ (rows : LeafRows (List (Found σ))) (start : TrackedCursor σ),
    (∀ found ∈ expr.foundRows rows, found.columns ≠ []) →
      let steps := (outputPlans uniqueId later).zip (expr.armRows rows)
      (∀ v, subqueryValue later (runFounds steps start) slot plan = some v ↔
        0 < passedCount steps start ∧ v = ofNat (passedCount steps start)) ∧
      (expr.isOnePlan = true → ∀ found, rows [] 0 = [found] →
        expr.Clean rows start → passedCount steps start = 1)) ∧
    (∀ {type : LPActionType} {column next tableJoin whereCond orderBy : LogicalPlan}
        {keys : List SqlKey} {keywords : List OptionalKeyword}
        {output : SqlKey} {options : PhysicalPlanOptions} {id : ℕ}
        {later : PlannerState}, options.parent = none →
      generatePhysicalPlan (.insert (.node type column next) tableJoin
        whereCond orderBy keys keywords output) options .empty = some (id, later) →
      slot ∉ (planUse (.insert (.node type column next) tableJoin whereCond
        orderBy keys keywords output)).walked →
      uniqueId ∉ output.uniqueId ::
        (outputIds tableJoin ++ outputIds whereCond ++ outputIds column) →
      ∀ (steps : List (PhysicalPlan × List (Found σ)))
        (start : TrackedCursor σ), (∀ step ∈ steps, step.1 ∈ later.plans) →
      ∀ v, subqueryValue later (runFounds steps start) slot plan = some v ↔ plan.type = .insert ∧
        (start.output uniqueId).order [] none = some v) := by
  refine ⟨?_, ?_⟩
  · intro out options planner later hfresh hunused hslot hwalk rows start hrows
    obtain ⟨id, middle, hgen, hsame, hvalue⟩ :=
      subqueryValue_walked hplan hapart hfresh hslot hwalk (runFounds
        ((outputPlans uniqueId later).zip (expr.armRows rows)) start)
    obtain ⟨first, rest, hplans, hsteps, hstashes, hfirst, hrest⟩ :=
      hplan.stashedChain hapart hfresh hunused hgen
    have hcounts : Counts uniqueId _ _ :=
      counts_subquery hstashes hfirst hrest hrows start
    rw [← hplans, ← hsame] at hcounts
    refine ⟨fun v => ?_, fun hone found hfound hclean => ?_⟩
    · rw [hvalue, TrackedCursor.output, hcounts]
      cases passedCount ((outputPlans uniqueId later).zip (expr.armRows rows)) start with
      | zero => simp [counter]
      | succ count => simp [counter, Value.asNumber, eq_comm]
    · cases expr with
      | setOperation option left right => simp [SetExpr.isOnePlan] at hone
      | select distinct arms =>
        obtain rfl : arms = 0 := beq_iff_eq.mp hone
        have hmem : found ∈ (SetExpr.select distinct 0).foundRows rows :=
          SetExpr.mem_foundRows_select.mpr ⟨0, le_rfl, by simp [hfound]⟩
        obtain ⟨hindex, hdupl⟩ := hclean found hmem
        have hoperands : (SetExpr.select distinct 0).armRows rows = [[found]] := by
          simp [SetExpr.armRows, hfound]
        rw [hsame, hplans, hoperands, zip_cons_cons, zip_nil_right]
        exact passedCount_single hfirst hindex hdupl
  · intro type column next tableJoin whereCond orderBy keys keywords output
      options id later hparent hgen hslot houtput steps start hsteps v
    have hframe := runFounds_output_of_ne (fun step hstep => outputKey_ne_of_missed hgen houtput
      step.1 (hsteps step hstep)) start
    have hbelow : options.Below .empty := by
      intro parent hmem
      simp [hparent] at hmem
    obtain ⟨hadvances, _⟩ := (plannerRule_advances.holds _).generate hgen
      PlannerState.sound_empty hbelow
    have hnone : later.walked.lookup slot = none := by
      rw [lookup_eq_none_iff]
      intro entry hentry
      rw [bne_iff_ne]
      rintro rfl
      rcases hadvances.mem_slots (mem_map_of_mem hentry) with hmem | hmem
      · exact hslot hmem
      · simp [PlannerState.slots, PlannerState.empty] at hmem
    rw [subqueryValue, hnone]
    cases hplan with
    | setOperation hleft hright => simp [planValue, LogicalPlan.type]
    | select htree harms =>
      cases htree with
      | setOperation hok hplan0 hplan1 => simp [planValue, LogicalPlan.type]
      | leaf hleaf =>
        obtain ⟨rfl, _⟩ := hleaf
        simp [planValue, LogicalPlan.type, hframe]

namespace ScalarSubqueryWitness

open OrExpansionWitness SetPlanWitness InSubqueryWitness

/-- `SELECT id, 1 + (SELECT id FROM names) FROM names` -/
def laterColumn : LogicalPlan :=
  .insert (.node .columnList (.node .whereNode (.columnAlias ⟨⟨names, 2⟩, ⟨"id"⟩⟩) .null)
      (.node .columnList (.node .whereNode (.node .addition (.value ⟨.numberLiteral, "1"⟩)
        (.subquery [0] allNames)) .null) .null))
    (.node .tableJoin (.table ⟨names, 2⟩) .null) .null .null
    [{ nameKey none with uniqueId := 2 }] []
    { outputKey with uniqueId := 3 }

/-- The planner as the sub-query leaves it in a WHERE. -/
def walked : Option PlannerState :=
  walkWhereStatement (.subquery [0] allNames) 0 ⟨some 0, false⟩ .empty

/-- What the sub-query is read as there, when it finds the row `Ann`. -/
def walkedValue : Option (Option MSubscript) :=
  walked.map fun later => subqueryValue later (runFounds ((outputPlans 1
    later).zip ((SetExpr.select false 0).armRows oneRow)) .empty) [0] allNames

/-- What it is read as in a later column, when all plans find that row. -/
def missedValue : Option (Option MSubscript) :=
  (generatePhysicalPlan laterColumn ⟨none, false⟩ .empty).map fun planned =>
    subqueryValue planned.2 (runFounds (planned.2.plans.map fun plan =>
      (plan, oneRow [] 0)) .empty) [0] allNames

end ScalarSubqueryWitness

open InSubqueryWitness ScalarSubqueryWitness in
/-- A sub-query with the one row `Ann` is read as 1 in a WHERE, and as the
empty string in a later column. -/
theorem scalar_subquery_misread : (SetExpr.select false 0).meaning oneRow.once = {[name]} ∧
    walkedValue = some (some (numberSubscript 1)) ∧
    numberSubscript 1 ≠ name ∧ missedValue = some none := by
  refine ⟨?_, ?_, ?_, ?_⟩ <;> decide +kernel

open SetPlanWitness InSubqueryWitness ScalarSubqueryWitness in
/-- With one row the value is right only if it is 1. -/
theorem one_row_read_as_one : ∃ later, walked = some later ∧
    ∀ v, subqueryValue later (runFounds ((outputPlans 1 later).zip
      ((SetExpr.select false 0).armRows oneRow)) .empty) [0] allNames =
        some v ↔ v = numberSubscript 1 := by
  have hsome : walked.isSome := by decide
  obtain ⟨later, hwalk⟩ := isSome_iff_exists.mp hsome
  have hplan : Realises 1 (.select false 0) allNames :=
    .select (.leaf allNames_select) rfl
  have hapart : Apart 1 allNames := by
    unfold Apart
    decide
  obtain ⟨hvalue, hone⟩ := (scalar_subquery_value_iff hplan hapart [0]).1
    PlannerState.fresh_empty rfl (by simp [PlannerState.slots,
      PlannerState.empty]) hwalk oneRow .empty (by decide)
  have hcount := hone rfl _ rfl fun found _ => ⟨rfl, rfl⟩
  refine ⟨later, hwalk, fun v => ?_⟩
  rw [hvalue, hcount, and_iff_right Nat.one_pos]
  rfl

end Octo
