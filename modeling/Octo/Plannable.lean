/-
Plans the planner ends on.  It dereferences a key that may be missing when it
looks for the owner of a column, so a plan is only known to come through if
each column belongs to a table its own SELECT iterates.
-/
import Octo.PlanList

namespace Octo

open LogicalPlan List

mutual

/-- SELECTs and set operations over them, whose expressions the planner
knows and whose columns belong to their own tables. -/
def plannable : LogicalPlan → Bool
  | .insert columns tableJoin whereCond orderBy keys keywords output =>
    (insert columns tableJoin whereCond orderBy keys keywords output).lpVerifyStructure &&
      keys ≠ [] && plannableSources tableJoin && walkable keys whereCond &&
      walkableFirst keys columns
  | .setOperation _ plan0 plan1 => plannable plan0 && plannable plan1
  | _ => false

def plannableSources : LogicalPlan → Bool
  | .null => true
  | .node .tableJoin .null _ => true
  | .node .tableJoin (.table _) next => plannableSources next
  | .node .tableJoin source next => plannable source && plannableSources next
  | _ => false

def walkable (keys : List SqlKey) : LogicalPlan → Bool
  | .null | .value _ | .key _ | .derivedColumn _ _ => true
  | .columnAlias ref => keys.any (·.uniqueId == ref.tableAlias.uniqueId)
  | .subquery _ plan => plannable plan
  | .node type operand0 operand1 =>
    if walksBoth type then walkable keys operand0 && walkable keys operand1
    else walksFirst type && walkable keys operand0
  | _ => false

def walkableFirst (keys : List SqlKey) : LogicalPlan → Bool
  | .node _ column _ => walkable keys column
  | _ => false

end

/-- The plan at `id` iterates `keys`. -/
def Iterates (state : PlannerState) (id : Nat) (keys : List SqlKey) : Prop :=
  ∃ plan ∈ state.plans.map PhysicalPlan.settled, plan.id = id ∧ plan.iterKeys = keys

variable {state : PlannerState} {id : Nat} {keys : List SqlKey}

theorem Grows.iterates {outputs : List Nat} {later : PlannerState}
    (hgrows : Grows outputs state later)
    (hiterates : Iterates state id keys) : Iterates later id keys := by
  obtain ⟨plan, hplan, hid, hkeys⟩ := hiterates
  obtain ⟨new, hnew, _⟩ := hgrows.added
  refine ⟨plan, ?_, hid, hkeys⟩
  rw [hnew]
  exact mem_append_right new hplan

theorem Iterates.setKeys {old : List SqlKey} (hiterates : Iterates state id old)
    (keys : List SqlKey) : Iterates (state.setKeys id keys) id keys := by
  obtain ⟨plan, hplan, hid, _⟩ := hiterates
  obtain ⟨kept, hkept, rfl⟩ := mem_map.mp hplan
  refine ⟨_, mem_map_of_mem (mem_map_of_mem hkept), ?_, ?_⟩ <;>
    simp only [PhysicalPlan.settled] at hid ⊢ <;> simp [hid]

/-- Addresses are unique. -/
theorem PlannerState.Fresh.find?_iterates (hfresh : state.Fresh)
    (hiterates : Iterates state id keys) :
    ∃ plan, state.find? id = some plan ∧ plan.iterKeys = keys := by
  obtain ⟨settled, hmem, hid, rfl⟩ := hiterates
  obtain ⟨plan, hplan, rfl⟩ := mem_map.mp hmem
  have hid : plan.id = id := hid
  cases hfind : state.find? id with
  | none =>
    have := find?_eq_none.mp hfind plan hplan
    simp [hid] at this
  | some found =>
    have hfound : found.id = id := by
      simpa using find?_some hfind
    have hsame : found = plan :=
      hfresh.descending.eq_of_id_eq (mem_of_find?_eq_some hfind) hplan (hfound.trans hid.symm)
    exact ⟨found, rfl, by rw [hsame]; rfl⟩

theorem scanIterKeys_found {uniqueId : Nat} (keys : List SqlKey) (start : Nat)
    (hkeys : keys.any (·.uniqueId == uniqueId) = true) : ∃ index < start + keys.length,
    scanIterKeys uniqueId keys.length keys start = some index := by
  induction keys generalizing start with
  | nil => simp at hkeys
  | cons key rest ih =>
    rw [length_cons, scanIterKeys]
    by_cases hkey : key.uniqueId = uniqueId
    · exact ⟨start, by omega, by rw [if_pos hkey]⟩
    · have hrest : rest.any (·.uniqueId == uniqueId) = true := by
        simpa [hkey] using hkeys
      obtain ⟨index, hlt, hscan⟩ := ih (start + 1) hrest
      exact ⟨index, by omega, by rw [if_neg hkey, hscan]⟩

/-- A column of the plan's own tables marks nothing. -/
theorem walkColumnAlias_own (hfresh : state.Fresh) {out : Nat} (hiterates : Iterates state out keys)
    {ref : SqlColumnAlias} (hkeys : keys.any (·.uniqueId == ref.tableAlias.uniqueId) = true) :
    walkColumnAlias ref out state = some state := by
  obtain ⟨plan, hfind, rfl⟩ := hfresh.find?_iterates hiterates
  obtain ⟨index, hlt, hscan⟩ := scanIterKeys_found plan.iterKeys 0 hkeys
  have hmem : plan ∈ state.plans := mem_of_find?_eq_some hfind
  obtain ⟨fuel, hfuel⟩ : ∃ fuel, state.nextId = fuel + 1 :=
    Nat.exists_eq_succ_of_ne_zero (Nat.ne_of_gt (Nat.zero_lt_of_lt (hfresh.below plan hmem)))
  simp only [walkColumnAlias, hfind, hfuel, markDeferred, hscan,
    Option.bind_eq_bind, Option.bind_some]
  rw [if_pos (by omega)]

/-- The four functions, run on one plan, come to an end. -/
structure Ends (plan : LogicalPlan) : Prop where
  generate : ∀ options {state}, plannable plan = true → state.Fresh →
    ∃ id later, generatePhysicalPlan plan options state = some (id, later)
  sources : ∀ options {state}, plannableSources plan = true → state.Fresh →
    ∃ later, generateSources plan options state = some later
  walk : ∀ options {keys out state}, walkable keys plan = true →
    state.Fresh → Iterates state out keys →
    ∃ later, walkWhereStatement plan out options state = some later
  first : ∀ options {keys out state}, walkableFirst keys plan = true →
    state.Fresh → Iterates state out keys →
    ∃ later, walkFirstColumn plan out options state = some later

theorem ends (plan : LogicalPlan) : Ends plan := by
  induction plan with
  | null =>
    refine ⟨by simp [plannable], ?_, ?_, by simp [walkableFirst]⟩
    · exact fun _ _ _ _ => ⟨_, by rw [generateSources]⟩
    · exact fun _ _ _ _ _ _ _ => ⟨_, by rw [walkWhereStatement]⟩
  | value | key | derivedColumn =>
    refine ⟨by simp [plannable], by simp [plannableSources], ?_, by simp [walkableFirst]⟩
    exact fun _ _ _ _ _ _ _ => ⟨_, by rw [walkWhereStatement]⟩
  | columnAlias ref =>
    refine ⟨by simp [plannable], by simp [plannableSources], ?_, by simp [walkableFirst]⟩
    intro options keys out state hwalk hfresh hiterates
    exact ⟨state, by
      rw [walkWhereStatement, walkColumnAlias_own hfresh hiterates hwalk]⟩
  | table ref =>
    exact ⟨by simp [plannable], by simp [plannableSources],
      by simp [walkable], by simp [walkableFirst]⟩
  | subquery slot plan ih =>
    refine ⟨by simp [plannable], by simp [plannableSources], ?_, by simp [walkableFirst]⟩
    intro options keys out state hwalk hfresh _
    rw [walkable] at hwalk
    rw [walkWhereStatement]
    by_cases hseen : slot ∈ state.walked.map Prod.fst
    · exact ⟨state, by rw [if_pos hseen]⟩
    · obtain ⟨id, later, hplan⟩ := ih.generate
        { options with stashColumnsInKeys := true } hwalk hfresh
      rw [if_neg hseen, hplan]
      exact ⟨_, rfl⟩
  | node type operand0 operand1 ih0 ih1 =>
    refine ⟨by simp [plannable], ?_, ?_, ?_⟩
    · intro options state hsources hfresh
      by_cases htype : type = .tableJoin
      · subst htype
        cases operand0 with
        | null => exact ⟨state, by rw [generateSources]⟩
        | table ref =>
          exact ih1.sources options hsources hfresh
        | insert | setOperation =>
          simp only [plannableSources, Bool.and_eq_true] at hsources
          obtain ⟨id, later, hplan⟩ := ih0.generate options hsources.1 hfresh
          obtain ⟨last, hnext⟩ := ih1.sources options hsources.2
            ((generatePhysicalPlan_grows hfresh hplan).1.fresh hfresh)
          exact ⟨last, by simp [generateSources, hplan, hnext]⟩
        | _ => simp [plannableSources, plannable] at hsources
      · cases type <;> first | exact absurd rfl htype |
          simp [plannableSources] at hsources
    · intro options keys out state hwalk hfresh hiterates
      rw [walkable] at hwalk
      rw [walkWhereStatement]
      cases hboth : walksBoth type with
      | true =>
        simp only [hboth, ↓reduceIte, Bool.and_eq_true] at hwalk
        obtain ⟨middle, hfirst⟩ :=
          ih0.walk options hwalk.1 hfresh hiterates
        have hgrows := walkWhereStatement_grows hfresh hfirst
        obtain ⟨later, hsecond⟩ := ih1.walk options hwalk.2
          (hgrows.fresh hfresh) (hgrows.iterates hiterates)
        exact ⟨later, by simp [hfirst, hsecond]⟩
      | false =>
        simp only [hboth, Bool.false_eq_true, ↓reduceIte, Bool.and_eq_true] at hwalk
        obtain ⟨later, hfirst⟩ :=
          ih0.walk options hwalk.2 hfresh hiterates
        exact ⟨later, by simp [hwalk.1, hfirst]⟩
    · intro options keys out state hwalk hfresh hiterates
      exact ih0.walk options hwalk hfresh hiterates
  | insert columns tableJoin whereCond orderBy keys keywords output ihColumns ihJoin ihWhere _ =>
    refine ⟨?_, by simp [plannableSources], by simp [walkable], by simp [walkableFirst]⟩
    intro options state hplan hfresh
    simp only [plannable, Bool.and_eq_true, decide_eq_true_eq] at hplan
    obtain ⟨⟨⟨⟨hverified, hkeys⟩, hjoin⟩, hwhere⟩, hcolumns⟩ := hplan
    have halloc := Grows.allocate state options output orderBy
    have hfresh0 := halloc.fresh hfresh
    have hiterates0 : Iterates (state.allocate options output orderBy)
        state.nextId [] := ⟨_, mem_cons_self, rfl, rfl⟩
    obtain ⟨state1, hsources⟩ :=
      ihJoin.sources (options.within state.nextId) hjoin hfresh0
    have hgrows1 := generateSources_grows hfresh0 hsources
    have hiterates1 := (hgrows1.iterates hiterates0).setKeys keys
    have hfresh1 : (state1.setKeys state.nextId keys).Fresh :=
      (hgrows1.fresh hfresh0).modify state.nextId (keeps_setKeys keys)
    obtain ⟨state2, hwhere⟩ := ihWhere.walk (options.within state.nextId) hwhere hfresh1 hiterates1
    have hgrows2 := walkWhereStatement_grows hfresh1 hwhere
    obtain ⟨state3, hfirst⟩ := ihColumns.first (options.within state.nextId) hcolumns
      (hgrows2.fresh hfresh1) (hgrows2.iterates hiterates1)
    simp only [PhysicalPlanOptions.within, PlannerState.allocate,
      PlannerState.setKeys] at hsources hwhere hfirst
    exact ⟨_, _, by
      simp [generatePhysicalPlan, hverified, hsources, hwhere, hfirst, hkeys]; exact ⟨rfl, rfl⟩⟩
  | setOperation option plan0 plan1 ih0 ih1 =>
    refine ⟨?_, by simp [plannableSources], by simp [walkable], by simp [walkableFirst]⟩
    intro options state hplan hfresh
    simp only [plannable, Bool.and_eq_true] at hplan
    obtain ⟨out, middle, hplan1⟩ :=
      ih1.generate options hplan.2 hfresh
    obtain ⟨prev, last, hplan0⟩ := ih0.generate options hplan.1
      ((generatePhysicalPlan_grows hfresh hplan1).1.fresh hfresh)
    exact ⟨prev, _, by simp [generatePhysicalPlan, hplan1, hplan0]; rfl⟩

end Octo
