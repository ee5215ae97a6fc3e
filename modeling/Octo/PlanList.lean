/-
The list of plans the planner builds.  Every call puts new plans in front of
the list, with addresses above all that were given out before; of the plans
that were there it changes nothing but the deferred mark.
-/
import Mathlib.Data.List.Nodup
import Octo.PhysicalPlan

namespace Octo

open LogicalPlan List PhysicalPlan
open Option hiding map_id map_map

/-- Expressions that are left alone by the walk. -/
def walkSkips : LogicalPlan → Bool
  | .null | .value _ | .key _ | .derivedColumn _ _ => true
  | _ => false

/-- The options for the parts of the plan at `id`. -/
def PhysicalPlanOptions.within (options : PhysicalPlanOptions) (id : Nat) :
    PhysicalPlanOptions :=
  { options with parent := some id }

/-- Put a new plan in front of the list. -/
def PlannerState.allocate (state : PlannerState)
    (options : PhysicalPlanOptions) (output : SqlKey) (orderBy : LogicalPlan) :
    PlannerState :=
  { state with
    plans := newPlan state.nextId options output orderBy :: state.plans
    nextId := state.nextId + 1 }

/-- The state once the sources of the plan at `id` are planned. -/
def PlannerState.setKeys (state : PlannerState) (id : Nat) (keys : List SqlKey) : PlannerState :=
  state.modify id fun plan => { plan with iterKeys := keys }

/-- The field `slot` gets the output key of the plan at `id`. -/
def PlannerState.overwrite (state : PlannerState) (slot : Slot) (id : Nat) :
    PlannerState :=
  { state with walked := (slot, id) :: state.walked }

variable {keywords : List OptionalKeyword} {options : PhysicalPlanOptions}
  {later state : PlannerState} {id out : Nat}

variable {columns tableJoin : LogicalPlan} {keys : List SqlKey} {output : SqlKey}

/-- What planning a SELECT does. -/
theorem generatePhysicalPlan_insert {whereCond orderBy : LogicalPlan}
    (hplan : generatePhysicalPlan (.insert columns tableJoin whereCond orderBy
    keys keywords output) options state = some (id, later)) :
    ∃ planned walked last, keys ≠ [] ∧ id = state.nextId ∧
    generateSources tableJoin (options.within state.nextId)
    (state.allocate options output orderBy) = some planned ∧
    walkWhereStatement whereCond state.nextId (options.within state.nextId)
    (planned.setKeys state.nextId keys) = some walked ∧
    walkFirstColumn columns state.nextId (options.within state.nextId) walked = some last ∧
    later = last.modify state.nextId (completePlan options whereCond columns keywords) := by
  rw [generatePhysicalPlan] at hplan
  by_cases hverified : (LogicalPlan.insert columns tableJoin whereCond orderBy keys keywords
      output).lpVerifyStructure = true
  swap
  · simp [hverified] at hplan
  simp only [hverified, Bool.not_true, Bool.false_eq_true, ↓reduceIte,
    bind_some_iff] at hplan
  obtain ⟨planned, hsources, hrest⟩ := hplan
  by_cases hkeys : keys = []
  · simp [hkeys] at hrest
  · simp only [hkeys, ↓reduceIte, bind_some_iff, some.injEq, Prod.mk.injEq] at hrest
    obtain ⟨walked, hwhere, last, hcolumns, rfl, rfl⟩ := hrest
    exact ⟨planned, walked, last, hkeys, rfl, hsources, hwhere, hcolumns, rfl⟩

/-- What planning a set operation does. -/
theorem generatePhysicalPlan_setOperation {option : SetOption} {plan0 plan1 : LogicalPlan}
    (hplan : generatePhysicalPlan (.setOperation option plan0 plan1) options
    state = some (id, later)) : ∃ out middle last,
    generatePhysicalPlan plan1 options state = some (out, middle) ∧
    generatePhysicalPlan plan0 options middle = some (id, last) ∧
    later = markSetOperation option out id last := by
  rw [generatePhysicalPlan] at hplan
  simp only [bind_some_iff, Prod.exists, some.injEq, Prod.mk.injEq] at hplan
  obtain ⟨out, middle, hplan1, prev, last, hplan0, rfl, rfl⟩ := hplan
  exact ⟨out, middle, last, hplan1, hplan0, rfl⟩

theorem walkFirstColumn_some (hwalk : walkFirstColumn columns out options state = some later) :
    ∃ type column next, columns = .node type column next ∧
    walkWhereStatement column out options state = some later := by
  cases columns with
  | node type column next =>
    exact ⟨type, column, next, rfl, by simpa [walkFirstColumn] using hwalk⟩
  | _ => simp [walkFirstColumn] at hwalk

/-- What has to be shown of each step of the planner, to have it of every run:
`Gen` of planning, `Src` of planning sources and `Walk` of walking. -/
structure PlannerRule (Gen : LogicalPlan → PhysicalPlanOptions → PlannerState → Nat →
    PlannerState → Prop) (Src : LogicalPlan → PhysicalPlanOptions → PlannerState →
    PlannerState → Prop) (Walk : LogicalPlan → Nat → PhysicalPlanOptions → PlannerState →
    PlannerState → Prop) : Prop where
  setOperation : ∀ {option plan0 plan1 options state out state1 prev state2},
    Gen plan1 options state out state1 → Gen plan0 options state1 prev state2 →
    Gen (.setOperation option plan0 plan1) options state prev
    (markSetOperation option out prev state2)
  insert : ∀ {type column next tableJoin whereCond orderBy keys keywords output
      options state state1 state2 state3},
    keys ≠ [] →
    Src tableJoin (options.within state.nextId) (state.allocate options output orderBy) state1 →
    Walk whereCond state.nextId (options.within state.nextId)
      (state1.setKeys state.nextId keys) state2 →
    Walk column state.nextId (options.within state.nextId) state2 state3 →
    Gen (.insert (.node type column next) tableJoin whereCond orderBy keys
        keywords output) options state state.nextId
      (state3.modify state.nextId (completePlan options whereCond
        (.node type column next) keywords))
  sourcesNull : ∀ {options state}, Src .null options state state
  sourcesEnd : ∀ {next options state}, Src (.node .tableJoin .null next) options state state
  sourcesTable : ∀ {ref next options state state1}, Src next options state state1 →
    Src (.node .tableJoin (.table ref) next) options state state1
  sourcesPlan : ∀ {source next options state id state1 state2},
    source ≠ .null → (∀ ref, source ≠ .table ref) → Gen source options state id state1 →
    Src next options state1 state2 → Src (.node .tableJoin source next) options state state2
  walkSkip : ∀ {plan out options state}, walkSkips plan = true → Walk plan out options state state
  walkColumn : ∀ {ref out options state state1}, walkColumnAlias ref out state = some state1 →
    Walk (.columnAlias ref) out options state state1
  walkSeen : ∀ {slot plan out options state}, slot ∈ state.walked.map Prod.fst →
    Walk (.subquery slot plan) out options state state
  walkSubquery : ∀ {slot plan out options state id state1}, slot ∉ state.walked.map Prod.fst →
    Gen plan { options with stashColumnsInKeys := true } state id state1 →
    Walk (.subquery slot plan) out options state (state1.overwrite slot id)
  walkBoth : ∀ {type operand0 operand1 out options state state1 state2}, walksBoth type = true →
    Walk operand0 out options state state1 → Walk operand1 out options state1 state2 →
    Walk (.node type operand0 operand1) out options state state2
  walkFirst : ∀ {type operand0 operand1 out options state state1},
    walksBoth type = false → walksFirst type = true → Walk operand0 out options state state1 →
    Walk (.node type operand0 operand1) out options state state1

namespace PlannerRule

variable {Gen : LogicalPlan → PhysicalPlanOptions → PlannerState → Nat → PlannerState → Prop}
  {Src : LogicalPlan → PhysicalPlanOptions → PlannerState → PlannerState → Prop}
  {Walk : LogicalPlan → Nat → PhysicalPlanOptions → PlannerState → PlannerState → Prop}

/-- The four functions, run on one plan. -/
structure Holds (Gen : LogicalPlan → PhysicalPlanOptions → PlannerState → Nat → PlannerState → Prop)
    (Src : LogicalPlan → PhysicalPlanOptions → PlannerState → PlannerState → Prop)
    (Walk : LogicalPlan → Nat → PhysicalPlanOptions → PlannerState →
      PlannerState → Prop) (plan : LogicalPlan) : Prop where
  generate : ∀ {options state id state1},
    generatePhysicalPlan plan options state = some (id, state1) → Gen plan options state id state1
  sources : ∀ {options state state1}, generateSources plan options state = some state1 →
    Src plan options state state1
  walk : ∀ {out options state state1}, walkWhereStatement plan out options state = some state1 →
    Walk plan out options state state1
  first : ∀ {out options state state1}, walkFirstColumn plan out options state = some state1 →
    ∃ type column next, plan = .node type column next ∧ Walk column out options state state1

theorem holds (rule : PlannerRule Gen Src Walk) (plan : LogicalPlan) : Holds Gen Src Walk plan := by
  induction plan with
  | null =>
    refine ⟨by simp [generatePhysicalPlan], ?_, ?_, by simp [walkFirstColumn]⟩
    · intro options state state1 h
      obtain rfl : state = state1 := by simpa [generateSources] using h
      exact rule.sourcesNull
    · intro out options state state1 h
      obtain rfl : state = state1 := by simpa [walkWhereStatement] using h
      exact rule.walkSkip rfl
  | value | key | derivedColumn =>
    refine ⟨by simp [generatePhysicalPlan], by simp [generateSources], ?_,
      by simp [walkFirstColumn]⟩
    intro out options state state1 h
    obtain rfl : state = state1 := by simpa [walkWhereStatement] using h
    exact rule.walkSkip rfl
  | columnAlias ref =>
    refine ⟨by simp [generatePhysicalPlan], by simp [generateSources], ?_,
      by simp [walkFirstColumn]⟩
    intro out options state state1 h
    exact rule.walkColumn (by simpa [walkWhereStatement] using h)
  | table ref =>
    exact ⟨by simp [generatePhysicalPlan], by simp [generateSources],
      by simp [walkWhereStatement], by simp [walkFirstColumn]⟩
  | subquery slot plan ih =>
    refine ⟨by simp [generatePhysicalPlan], by simp [generateSources], ?_,
      by simp [walkFirstColumn]⟩
    intro out options state state1 h
    rw [walkWhereStatement] at h
    by_cases hseen : slot ∈ state.walked.map Prod.fst
    · rw [if_pos hseen, some.injEq] at h
      subst h
      exact rule.walkSeen hseen
    · rw [if_neg hseen] at h
      simp only [bind_some_iff, Prod.exists, some.injEq] at h
      obtain ⟨id, middle, hplan, rfl⟩ := h
      exact rule.walkSubquery hseen (ih.generate hplan)
  | node type operand0 operand1 ih0 ih1 =>
    refine ⟨by simp [generatePhysicalPlan], ?_, ?_, ?_⟩
    · intro options state state1 h
      by_cases htype : type = .tableJoin
      · subst htype
        by_cases hnull : operand0 = .null
        · subst hnull
          obtain rfl : state = state1 := by simpa [generateSources] using h
          exact rule.sourcesEnd
        · cases operand0 with
          | null => exact absurd rfl hnull
          | table ref =>
            exact rule.sourcesTable (ih1.sources (by simpa [generateSources] using h))
          | _ =>
            simp only [generateSources, bind_some_iff, Prod.exists] at h
            obtain ⟨id, middle, hplan, hnext⟩ := h
            exact rule.sourcesPlan hnull nofun (ih0.generate hplan) (ih1.sources hnext)
      · cases type <;> first | exact absurd rfl htype |
          simp [generateSources] at h
    · intro out options state state1 h
      rw [walkWhereStatement] at h
      cases hboth : walksBoth type with
      | true =>
        simp only [hboth, ↓reduceIte, bind_some_iff] at h
        obtain ⟨middle, hfirst, hsecond⟩ := h
        exact rule.walkBoth hboth (ih0.walk hfirst) (ih1.walk hsecond)
      | false =>
        cases hfirst : walksFirst type with
        | true =>
          simp only [hboth, hfirst, Bool.false_eq_true, ↓reduceIte] at h
          exact rule.walkFirst hboth hfirst (ih0.walk h)
        | false => simp [hboth, hfirst] at h
    · intro out options state state1 h
      exact ⟨type, operand0, operand1, rfl, ih0.walk (by simpa [walkFirstColumn] using h)⟩
  | insert columns tableJoin whereCond orderBy keys keywords output ihColumns ihJoin ihWhere _ =>
    refine ⟨?_, by simp [generateSources], by simp [walkWhereStatement], by simp [walkFirstColumn]⟩
    intro options state id state1 h
    obtain ⟨planned, walked, last, hkeys, rfl, hsources, hwhere, hcolumns,
      rfl⟩ := generatePhysicalPlan_insert h
    obtain ⟨type, column, next, rfl, hcolumn⟩ := ihColumns.first hcolumns
    exact rule.insert hkeys (ihJoin.sources hsources) (ihWhere.walk hwhere) hcolumn
  | setOperation option plan0 plan1 ih0 ih1 =>
    refine ⟨?_, by simp [generateSources], by simp [walkWhereStatement], by simp [walkFirstColumn]⟩
    intro options state id state1 h
    obtain ⟨out, middle, last, hplan1, hplan0, rfl⟩ :=
      generatePhysicalPlan_setOperation h
    exact rule.setOperation (ih1.generate hplan1) (ih0.generate hplan0)

end PlannerRule

/-- The unique ids of the outputs of a plan and of all plans inside it. -/
def outputIds : LogicalPlan → List Nat
  | .subquery _ plan => outputIds plan
  | .node _ operand0 operand1 => outputIds operand0 ++ outputIds operand1
  | .insert columns tableJoin whereCond _ _ _ output =>
    output.uniqueId :: (outputIds tableJoin ++ outputIds whereCond ++ outputIds columns)
  | .setOperation _ plan0 plan1 => outputIds plan0 ++ outputIds plan1
  | _ => []

/-- A plan without its deferred mark. -/
def PhysicalPlan.settled (plan : PhysicalPlan) : PhysicalPlan :=
  { plan with deferredPlan := false }

/-- Later plans have higher addresses. -/
def Descending (plans : List PhysicalPlan) : Prop :=
  plans.Pairwise fun first second => second.id < first.id

theorem Descending.eq_of_id_eq {plans : List PhysicalPlan} (hplans : Descending plans)
    {first second : PhysicalPlan} (hfirst : first ∈ plans) (hsecond : second ∈ plans)
    (hid : first.id = second.id) : first = second := by
  have hnodup : (plans.map PhysicalPlan.id).Nodup :=
    pairwise_map.mpr (hplans.imp fun hlt => Nat.ne_of_gt hlt)
  exact inj_on_of_nodup_map hnodup hfirst hsecond hid

/-- Addresses are not given out twice. -/
structure PlannerState.Fresh (state : PlannerState) : Prop where
  descending : Descending state.plans
  below : ∀ plan ∈ state.plans, plan.id < state.nextId

/-- `later` has new plans, with outputs among `outputs`, in front of those of
`state`, which have not changed but for the deferred mark. -/
structure Grows (outputs : List Nat) (state later : PlannerState) : Prop where
  nextId_le : state.nextId ≤ later.nextId
  added : ∃ new, later.plans.map PhysicalPlan.settled =
      new ++ state.plans.map PhysicalPlan.settled ∧
    Descending new ∧
    ∀ plan ∈ new, state.nextId ≤ plan.id ∧ plan.id < later.nextId ∧
      plan.outputKey.uniqueId ∈ outputs
  walked : ∃ more, later.walked = more ++ state.walked

/-- A change that keeps what identifies a plan. -/
structure Keeps (change : PhysicalPlan → PhysicalPlan) : Prop where
  id : ∀ plan, (change plan).id = plan.id
  outputKey : ∀ plan, (change plan).outputKey = plan.outputKey

namespace PlannerState

theorem fresh_empty : empty.Fresh :=
  ⟨List.Pairwise.nil, by simp [empty]⟩

theorem fresh_iff_settled (state : PlannerState) :
    state.Fresh ↔ Descending (state.plans.map settled) ∧
    ∀ plan ∈ state.plans.map settled, plan.id < state.nextId := by
  constructor
  · rintro ⟨hsorted, hbelow⟩
    refine ⟨pairwise_map.mpr hsorted, ?_⟩
    intro plan hplan
    obtain ⟨old, hold, rfl⟩ := mem_map.mp hplan
    exact hbelow old hold
  · rintro ⟨hsorted, hbelow⟩
    exact ⟨pairwise_map.mp hsorted, fun plan hplan => hbelow plan.settled (mem_map_of_mem hplan)⟩

theorem Fresh.modify {state : PlannerState} (hfresh : state.Fresh) (id : Nat)
    {change : PhysicalPlan → PhysicalPlan} (hkeeps : Keeps change) :
    (state.modify id change).Fresh := by
  have hid : ∀ plan : PhysicalPlan, (if plan.id = id then change plan else plan).id = plan.id := by
    intro plan
    split
    · exact hkeeps.id plan
    · rfl
  constructor
  · refine pairwise_map.mpr (hfresh.descending.imp ?_)
    intro first second hlt
    simpa [hid] using hlt
  · intro plan hplan
    obtain ⟨old, hold, rfl⟩ := mem_map.mp hplan
    rw [hid]
    exact hfresh.below old hold

end PlannerState

/-- What every mark passes on to the result of all of them. -/
theorem markDeferred_induction {motive : PlannerState → PlannerState → Prop} {state later}
    (hrefl : ∀ state, motive state state)
    (hstep : ∀ state cur later, motive (state.modify cur fun plan =>
      { plan with deferredPlan := true }) later → motive state later)
    {uniqueId bound fuel : Nat} {cur : Option Nat}
    (hmark : markDeferred uniqueId bound fuel cur state = some later) : motive state later := by
  induction fuel generalizing cur state with
  | zero =>
    cases cur with
    | none => exact some.inj hmark ▸ hrefl state
    | some cur => cases hmark
  | succ fuel ih =>
    cases cur with
    | none => exact some.inj hmark ▸ hrefl state
    | some cur =>
      simp only [markDeferred, bind_some_iff] at hmark
      obtain ⟨plan, _, index, _, hrest⟩ := hmark
      split_ifs at hrest
      · exact some.inj hrest ▸ hrefl state
      · exact hstep state cur later (ih hrest)

namespace Grows

variable {outputs : List Nat} {state later : PlannerState}

theorem refl (outputs : List Nat) (state : PlannerState) : Grows outputs state state :=
  ⟨le_rfl, ⟨[], rfl, List.Pairwise.nil, by simp⟩, ⟨[], rfl⟩⟩

theorem trans {last : PlannerState} (hfirst : Grows outputs state later)
    (hsecond : Grows outputs later last) : Grows outputs state last := by
  obtain ⟨hnext, ⟨new, hnew, hsorted, hids⟩, more, hmore⟩ := hfirst
  obtain ⟨hnext', ⟨new', hnew', hsorted', hids'⟩, more', hmore'⟩ := hsecond
  refine ⟨le_trans hnext hnext', ⟨new' ++ new, ?_, ?_, ?_⟩, more' ++ more, ?_⟩
  · rw [hnew', hnew, append_assoc]
  · refine pairwise_append.mpr ⟨hsorted', hsorted, ?_⟩
    intro first hfirst second hsecond
    have := hids' first hfirst
    have := hids second hsecond
    omega
  · intro plan hplan
    rcases mem_append.mp hplan with hplan | hplan
    · obtain ⟨hge, hlt, hmem⟩ := hids' plan hplan
      exact ⟨le_trans hnext hge, hlt, hmem⟩
    · obtain ⟨hge, hlt, hmem⟩ := hids plan hplan
      exact ⟨hge, lt_of_lt_of_le hlt hnext', hmem⟩
  · rw [hmore', hmore, append_assoc]

theorem mono {more : List Nat} (hsub : outputs ⊆ more)
    (hgrows : Grows outputs state later) : Grows more state later := by
  obtain ⟨hnext, ⟨new, hnew, hsorted, hids⟩, hwalked⟩ := hgrows
  refine ⟨hnext, ⟨new, hnew, hsorted, ?_⟩, hwalked⟩
  intro plan hplan
  obtain ⟨hge, hlt, hmem⟩ := hids plan hplan
  exact ⟨hge, hlt, hsub hmem⟩

theorem fresh (hgrows : Grows outputs state later) (hfresh : state.Fresh) :
    later.Fresh := by
  obtain ⟨hnext, ⟨new, hnew, hsorted, hids⟩, _⟩ := hgrows
  obtain ⟨hold, hbelow⟩ := state.fresh_iff_settled.mp hfresh
  refine later.fresh_iff_settled.mpr ?_
  rw [hnew]
  constructor
  · refine pairwise_append.mpr ⟨hsorted, hold, ?_⟩
    intro first hfirst second hsecond
    have := hids first hfirst
    have := hbelow second hsecond
    omega
  · intro plan hplan
    rcases mem_append.mp hplan with hplan | hplan
    · exact (hids plan hplan).2.1
    · exact lt_of_lt_of_le (hbelow plan hplan) hnext

theorem allocate (state : PlannerState) (options : PhysicalPlanOptions)
    (output : SqlKey) (orderBy : LogicalPlan) :
    Grows [output.uniqueId] state (state.allocate options output orderBy) := by
  refine ⟨Nat.le_succ _, ⟨[newPlan state.nextId options output orderBy], rfl,
    pairwise_singleton _ _, ?_⟩, [], rfl⟩
  intro plan hplan
  obtain rfl := mem_singleton.mp hplan
  exact ⟨le_rfl, Nat.lt_succ_self _, mem_singleton_self _⟩

/-- New plans may change. -/
theorem modify (hfresh : state.Fresh) (hgrows : Grows outputs state later) {id : Nat}
    (hid : state.nextId ≤ id) {change : PhysicalPlan → PhysicalPlan} (hchange : Keeps change)
    (hsettled : ∀ plan, (change plan).settled = (change plan.settled).settled) :
    Grows outputs state (later.modify id change) := by
  obtain ⟨hnext, ⟨new, hnew, hsorted, hids⟩, hwalked⟩ := hgrows
  let update (plan : PhysicalPlan) : PhysicalPlan :=
    if plan.id = id then (change plan).settled else plan
  have hupdate_id : ∀ plan, (update plan).id = plan.id := by
    intro plan
    by_cases hplan : plan.id = id <;>
      simp [update, hplan, settled, hchange.id]
  have hupdate_output : ∀ plan, (update plan).outputKey = plan.outputKey := by
    intro plan
    by_cases hplan : plan.id = id <;>
      simp [update, hplan, settled, hchange.outputKey]
  have hmodify : (later.modify id change).plans.map settled =
      (later.plans.map settled).map update := by
    simp only [PlannerState.modify, map_map]
    apply map_congr_left
    intro plan _
    have hplan : plan.settled.id = plan.id := rfl
    by_cases heq : plan.id = id
    · simp [update, heq, hplan, hsettled plan]
    · simp [update, heq, hplan]
  have hold : (state.plans.map settled).map update =
      state.plans.map settled := by
    rw [map_congr_left, map_id]
    intro plan hplan
    have := (state.fresh_iff_settled.mp hfresh).2 plan hplan
    simp only [update, id_eq]
    rw [if_neg (by omega)]
  refine ⟨hnext, ⟨new.map update, ?_, ?_, ?_⟩, hwalked⟩
  · rw [hmodify, hnew, map_append, hold]
  · refine pairwise_map.mpr (hsorted.imp ?_)
    intro first second hlt
    simpa [hupdate_id] using hlt
  · intro plan hplan
    obtain ⟨old, hmem, rfl⟩ := mem_map.mp hplan
    have hlater : (later.modify id change).nextId = later.nextId := rfl
    simpa [hupdate_id, hupdate_output, hlater] using hids old hmem

theorem overwrite (hgrows : Grows outputs state later) (slot : Slot)
    (id : Nat) : Grows outputs state (later.overwrite slot id) := by
  obtain ⟨hnext, hnew, more, hmore⟩ := hgrows
  exact ⟨hnext, hnew, (slot, id) :: more, by simp [PlannerState.overwrite, hmore]⟩

/-- Deferring changes the deferred mark only. -/
theorem defer (state : PlannerState) (id : Nat) : Grows [] state
      (state.modify id fun plan => { plan with deferredPlan := true }) := by
  refine ⟨le_rfl, ⟨[], ?_, List.Pairwise.nil, by simp⟩, [], rfl⟩
  simp only [PlannerState.modify, map_map, nil_append]
  apply map_congr_left
  intro plan _
  by_cases hplan : plan.id = id <;> simp [hplan, settled]

theorem markDeferred {uniqueId bound fuel : Nat} {cur : Option Nat}
    (hmark : markDeferred uniqueId bound fuel cur state = some later) : Grows [] state later :=
  markDeferred_induction (Grows.refl []) (fun state cur _ h => (defer state cur).trans h) hmark

end Grows

variable (option : SetOption)

theorem keeps_keepIndex : Keeps (keepIndex option) :=
  ⟨fun _ => rfl, fun _ => rfl⟩

theorem keeps_secondOperand : Keeps (secondOperand option) :=
  ⟨fun _ => rfl, fun _ => rfl⟩

theorem keeps_setKeys (keys : List SqlKey) : Keeps fun plan => { plan with iterKeys := keys } :=
  ⟨fun _ => rfl, fun _ => rfl⟩

theorem keeps_completePlan (options : PhysicalPlanOptions) (whereCond columns : LogicalPlan)
    (keywords : List OptionalKeyword) : Keeps (completePlan options whereCond columns keywords) :=
  ⟨fun _ => rfl, fun _ => rfl⟩

/-- A SELECT adds its own plan and those of its parts. -/
theorem Grows.insert {whereCond column orderBy : LogicalPlan} {options : PhysicalPlanOptions}
    {state state1 state2 state3 : PlannerState}
    (hfresh : state.Fresh) (hsources : (state.allocate options output orderBy).Fresh →
    Grows (outputIds tableJoin) (state.allocate options output orderBy) state1)
    (hwhere : (state1.setKeys state.nextId keys).Fresh →
    Grows (outputIds whereCond) (state1.setKeys state.nextId keys) state2)
    (hcolumn : state2.Fresh → Grows (outputIds column) state2 state3) (columns : LogicalPlan)
    (keywords : List OptionalKeyword) :
    Grows (output.uniqueId :: (outputIds tableJoin ++ outputIds whereCond ++
    outputIds column)) state (state3.modify state.nextId
    (completePlan options whereCond columns keywords)) := by
  have halloc : Grows (output.uniqueId :: (outputIds tableJoin ++
      outputIds whereCond ++ outputIds column)) state (state.allocate options output orderBy) :=
    (Grows.allocate state options output orderBy).mono (by simp)
  have hall1 := halloc.trans ((hsources (halloc.fresh hfresh)).mono (by intro n hn; simp [hn]))
  have hkeys := Grows.modify hfresh hall1 le_rfl (keeps_setKeys keys) (fun _ => rfl)
  have hall2 := hkeys.trans ((hwhere (hkeys.fresh hfresh)).mono (by intro n hn; simp [hn]))
  have hall3 := hall2.trans ((hcolumn (hall2.fresh hfresh)).mono (by intro n hn; simp [hn]))
  exact Grows.modify hfresh hall3 le_rfl
    (keeps_completePlan options whereCond columns keywords) (fun _ => rfl)

/-- What every run of the planner does to the list. -/
theorem plannerRule_grows : PlannerRule (fun plan _ state id later => state.Fresh →
    Grows (outputIds plan) state later ∧ state.nextId ≤ id)
    (fun plan _ state later => state.Fresh → Grows (outputIds plan) state later)
    (fun plan _ _ state later => state.Fresh → Grows (outputIds plan) state later) where
  setOperation := by
    intro option plan0 plan1 options state out state1 prev state2 h1 h0 hfresh
    obtain ⟨hgrows1, hout⟩ := h1 hfresh
    obtain ⟨hgrows0, hprev⟩ := h0 (hgrows1.fresh hfresh)
    have hprev' := le_trans hgrows1.nextId_le hprev
    refine ⟨?_, hprev'⟩
    have hboth : Grows (outputIds (.setOperation option plan0 plan1)) state
        state2 :=
      (hgrows1.mono (subset_append_right _ _)).trans (hgrows0.mono (subset_append_left _ _))
    exact Grows.modify hfresh (Grows.modify hfresh hboth hout
      (keeps_secondOperand option) (fun _ => rfl)) hprev' (keeps_keepIndex option) (fun _ => rfl)
  insert := by
    intro type column next tableJoin whereCond orderBy keys keywords output
      options state state1 state2 state3 _ hsources hwhere hcolumn hfresh
    refine ⟨?_, le_rfl⟩
    refine (Grows.insert hfresh hsources hwhere hcolumn (.node type column next) keywords).mono ?_
    rw [outputIds, outputIds, ← append_assoc, ← cons_append]
    exact subset_append_left _ _
  sourcesNull := fun _ => Grows.refl _ _
  sourcesEnd := fun _ => Grows.refl _ _
  sourcesTable := fun h hfresh => h hfresh
  sourcesPlan := by
    intro source next options state id state1 state2 _ _ hsource hnext hfresh
    obtain ⟨hgrows, _⟩ := hsource hfresh
    exact (hgrows.mono (subset_append_left _ _)).trans
      ((hnext (hgrows.fresh hfresh)).mono (subset_append_right _ _))
  walkSkip := fun _ _ => Grows.refl _ _
  walkColumn := by
    intro ref out options state state1 hwalk _
    simp only [walkColumnAlias, bind_some_iff] at hwalk
    obtain ⟨plan, _, hmark⟩ := hwalk
    exact Grows.markDeferred hmark
  walkSeen := fun _ _ => Grows.refl _ _
  walkSubquery := by
    intro slot plan out options state id state1 _ hplan hfresh
    exact (hplan hfresh).1.overwrite slot id
  walkBoth := by
    intro type operand0 operand1 out options state state1 state2 _ h0 h1 hfresh
    have hgrows := h0 hfresh
    exact (hgrows.mono (subset_append_left _ _)).trans
      ((h1 (hgrows.fresh hfresh)).mono (subset_append_right _ _))
  walkFirst := by
    intro type operand0 operand1 out options state state1 _ _ h0 hfresh
    exact (h0 hfresh).mono (subset_append_left _ _)

variable {plan : LogicalPlan}

theorem generatePhysicalPlan_grows (hfresh : state.Fresh)
    (hplan : generatePhysicalPlan plan options state = some (id, later)) :
    Grows (outputIds plan) state later ∧ state.nextId ≤ id :=
  (plannerRule_grows.holds plan).generate hplan hfresh

theorem generateSources_grows (hfresh : state.Fresh)
    (hplan : generateSources tableJoin options state = some later) :
    Grows (outputIds tableJoin) state later :=
  (plannerRule_grows.holds tableJoin).sources hplan hfresh

theorem walkWhereStatement_grows (hfresh : state.Fresh)
    (hplan : walkWhereStatement plan out options state = some later) :
    Grows (outputIds plan) state later :=
  (plannerRule_grows.holds plan).walk hplan hfresh

end Octo
