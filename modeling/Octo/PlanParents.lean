/-
Who planned what.  Every plan knows the plan in whose FROM, WHERE or first
column it was found.  A run of the planner makes plans below its own parent or
below each other, and fills fields with plans of its own only.
-/
import Octo.SubqueryUse

namespace Octo

open List

/-- The parts of a physical plan that the planner does not change once the
plan is complete. -/
structure PlanView where
  id : Nat
  parentPlan : Option Nat
  outputKey : SqlKey
  whereCond : LogicalPlan
  projection : LogicalPlan

def PhysicalPlan.view (plan : PhysicalPlan) : PlanView where
  id := plan.id
  parentPlan := plan.parentPlan
  outputKey := plan.outputKey
  whereCond := plan.whereCond
  projection := plan.projection

namespace PlannerState

def views (state : PlannerState) : List PlanView :=
  state.plans.map PhysicalPlan.view

def slots (state : PlannerState) : List Slot :=
  state.walked.map Prod.fst

/-- The plan at `id` was found in the plan at `parent`. -/
def HasParent (state : PlannerState) (id parent : Nat) : Prop :=
  ∃ view ∈ state.views, view.id = id ∧ view.parentPlan = some parent

/-- Addresses grow from parents to children. -/
structure Sound (state : PlannerState) : Prop where
  descending : state.views.Pairwise fun first second => second.id < first.id
  below : ∀ view ∈ state.views, view.id < state.nextId
  parents : ∀ view ∈ state.views, ∀ parent, view.parentPlan = some parent → parent < view.id
  filled : ∀ entry ∈ state.walked, entry.2 < state.nextId

theorem sound_empty : empty.Sound := by
  constructor <;> simp [empty, views]

variable {state : PlannerState}

theorem Sound.fresh (hsound : state.Sound) :
    state.Fresh := by
  refine ⟨pairwise_map.mp hsound.descending, fun plan hplan => ?_⟩
  exact hsound.below plan.view (mem_map_of_mem hplan)

theorem Sound.eq_of_id_eq (hsound : state.Sound) {first second : PlanView}
    (hfirst : first ∈ state.views) (hsecond : second ∈ state.views) (hid : first.id = second.id) :
    first = second := by
  have hnodup : (state.views.map PlanView.id).Nodup :=
    pairwise_map.mpr (hsound.descending.imp fun hlt => Nat.ne_of_gt hlt)
  exact inj_on_of_nodup_map hnodup hfirst hsecond hid

end PlannerState

/-- The parent of the plans that are made under `options`. -/
def PhysicalPlanOptions.Below (options : PhysicalPlanOptions) (state : PlannerState) : Prop :=
  ∀ parent, options.parent = some parent → parent < state.nextId

/-- `later` has new plans in front of those of `state`. -/
structure Extends (state later : PlannerState) : Prop where
  nextId_le : state.nextId ≤ later.nextId
  added : ∃ new, later.views = new ++ state.views ∧ ∀ view ∈ new, state.nextId ≤ view.id
  walked : ∃ more, later.walked = more ++ state.walked

namespace Extends

variable {state later last : PlannerState}

theorem of_views_eq (hnext : state.nextId = later.nextId) (hviews : later.views = state.views)
    (hwalked : later.walked = state.walked) : Extends state later :=
  ⟨hnext.le, ⟨[], hviews, by simp⟩, ⟨[], hwalked⟩⟩

theorem trans (hfirst : Extends state later) (hsecond : Extends later last) :
    Extends state last := by
  obtain ⟨hnext, ⟨new, hnew, hids⟩, more, hmore⟩ := hfirst
  obtain ⟨hnext', ⟨new', hnew', hids'⟩, more', hmore'⟩ := hsecond
  refine ⟨hnext.trans hnext', ⟨new' ++ new, ?_, ?_⟩, more' ++ more, ?_⟩
  · rw [hnew', hnew, append_assoc]
  · intro view hview
    rcases mem_append.mp hview with hview | hview
    · exact hnext.trans (hids' view hview)
    · exact hids view hview
  · rw [hmore', hmore, append_assoc]

section

variable (hextends : Extends state later)
include hextends

theorem mem_views {view : PlanView} (hview : view ∈ state.views) : view ∈ later.views := by
  obtain ⟨new, hnew, _⟩ := hextends.added
  rw [hnew]
  exact mem_append_right new hview

theorem new_or_old {view : PlanView} (hview : view ∈ later.views) :
    state.nextId ≤ view.id ∨ view ∈ state.views := by
  obtain ⟨new, hnew, hids⟩ := hextends.added
  rw [hnew] at hview
  rcases mem_append.mp hview with hview | hview
  · exact .inl (hids view hview)
  · exact .inr hview

theorem mem_walked {entry : Slot × Nat} (hentry : entry ∈ state.walked) : entry ∈ later.walked := by
  obtain ⟨more, hmore⟩ := hextends.walked
  rw [hmore]
  exact mem_append_right more hentry

theorem mem_slots {slot : Slot} (hslot : slot ∈ state.slots) : slot ∈ later.slots := by
  obtain ⟨entry, hentry, rfl⟩ := mem_map.mp hslot
  exact mem_map_of_mem (hextends.mem_walked hentry)

theorem hasParent {id parent : Nat}
    (hparent : state.HasParent id parent) : later.HasParent id parent := by
  obtain ⟨view, hview, hid, hparent⟩ := hparent
  exact ⟨view, hextends.mem_views hview, hid, hparent⟩

end

end Extends

/-- A run from `state` to `later` for a part of a plan: the new plans have the
parent of `options` or another new one, and the fields of the part are filled
with new plans whose parents are at or above `floor`, each once if they are
apart. -/
structure Advances (options : PhysicalPlanOptions) (floor : Nat)
    (use : SubqueryUse) (state later : PlannerState) : Prop where
  sound : later.Sound
  grows : Extends state later
  parents : ∀ view ∈ later.views, state.nextId ≤ view.id → view.parentPlan = options.parent ∨
    ∃ parent, view.parentPlan = some parent ∧ state.nextId ≤ parent
  walked : ∀ slot id, (slot, id) ∈ later.walked →
    (slot, id) ∈ state.walked ∨ slot ∈ use.walked ∧ state.nextId ≤ id ∧
      ∃ parent, later.HasParent id parent ∧ floor ≤ parent
  nodup : use.apart = true → state.slots.Nodup → later.slots.Nodup

namespace Advances

variable {options : PhysicalPlanOptions} {floor : Nat} {use : SubqueryUse}
  {state later last : PlannerState}

theorem of_views_eq (options : PhysicalPlanOptions) (floor : Nat) (use : SubqueryUse)
    (hsound : state.Sound) (hnext : state.nextId = later.nextId)
    (hviews : later.views = state.views) (hwalked : later.walked = state.walked) :
    Advances options floor use state later := by
  refine ⟨?_, .of_views_eq hnext hviews hwalked, ?_, ?_, ?_⟩
  · obtain ⟨hdescending, hbelow, hparents, hfilled⟩ := hsound
    constructor <;> simpa only [hviews, hwalked, ← hnext]
  · intro view hview hid
    rw [hviews] at hview
    exact absurd (hsound.below view hview) (Nat.not_lt.mpr hid)
  · intro slot id hentry
    exact .inl (hwalked ▸ hentry)
  · intro _ hnodup
    rwa [PlannerState.slots, hwalked]

variable {use' : SubqueryUse} {options' : PhysicalPlanOptions} {floor' : Nat}

theorem congr (hadvances : Advances options floor use state later)
    (hwalked : use'.walked = use.walked) (hapart : use'.apart = true → use.apart = true) :
    Advances options floor use' state later := by
  obtain ⟨hsound, hextends, hparents, hfilled, hnodup⟩ := hadvances
  refine ⟨hsound, hextends, hparents, ?_, fun h => hnodup (hapart h)⟩
  rw [hwalked]
  exact hfilled

theorem trans (hfirst : Advances options floor use state later)
    (hsecond : Advances options' floor' use' later last)
    (hoptions : options'.parent = options.parent ∨
    ∃ parent, options'.parent = some parent ∧ state.nextId ≤ parent) (hfloor : floor ≤ floor') :
    Advances options floor (use.operands use') state last := by
  refine ⟨hsecond.sound, hfirst.grows.trans hsecond.grows, ?_, ?_, ?_⟩
  · intro view hview hid
    rcases hsecond.grows.new_or_old hview with hnew | hold
    · rcases hsecond.parents view hview hnew with heq | ⟨parent, heq, hle⟩
      · rw [heq]
        exact hoptions
      · exact .inr ⟨parent, heq, hfirst.grows.nextId_le.trans hle⟩
    · exact hfirst.parents view hold hid
  · intro slot id hentry
    rcases hsecond.walked slot id hentry with
      hentry | ⟨hslot, hid, parent, hparent, hle⟩
    · rcases hfirst.walked slot id hentry with
        hentry | ⟨hslot, hid, parent, hparent, hle⟩
      · exact .inl hentry
      · exact .inr ⟨mem_append_left _ hslot, hid, parent, hsecond.grows.hasParent hparent, hle⟩
    · exact .inr ⟨mem_append_right _ hslot,
        hfirst.grows.nextId_le.trans hid, parent, hparent, hfloor.trans hle⟩
  · intro hapart hnodup
    obtain ⟨hfirstApart, hsecondApart⟩ := Bool.and_eq_true_iff.mp hapart
    exact hsecond.nodup hsecondApart (hfirst.nodup hfirstApart hnodup)

theorem lower (hadvances : Advances options floor use state later) (hle : floor' ≤ floor) :
    Advances options floor' use state later := by
  obtain ⟨hsound, hextends, hparents, hwalked, hnodup⟩ := hadvances
  refine ⟨hsound, hextends, hparents, fun slot id hentry => ?_, hnodup⟩
  rcases hwalked slot id hentry with hold | ⟨hslot, hid, parent, hchild, h⟩
  · exact .inl hold
  · exact .inr ⟨hslot, hid, parent, hchild, hle.trans h⟩

theorem beside (hfirst : Advances options floor use state later)
    (hsecond : Advances options' floor' use' later last)
    (hoptions : options'.parent = options.parent ∨
    ∃ parent, options'.parent = some parent ∧ state.nextId ≤ parent) (hfloor : floor ≤ floor') :
    Advances options floor (use.beside use') state last := by
  refine (hfirst.trans hsecond hoptions hfloor).congr rfl fun hapart => ?_
  exact (Bool.and_eq_true_iff.mp hapart).1

/-- Only the fields of the part that was planned are filled. -/
theorem mem_slots (hadvances : Advances options floor use state later) {slot : Slot}
    (hslot : slot ∈ later.slots) : slot ∈ use.walked ∨ slot ∈ state.slots := by
  obtain ⟨⟨slot, id⟩, hentry, rfl⟩ := mem_map.mp hslot
  rcases hadvances.walked slot id hentry with hold | ⟨hnew, _⟩
  · exact .inr (mem_map_of_mem hold)
  · exact .inl hnew

theorem below (hadvances : Advances options floor use state later) (hbelow : options'.Below state) :
    options'.Below later :=
  fun parent hparent =>
    (hbelow parent hparent).trans_le hadvances.grows.nextId_le

theorem allocate (hsound : state.Sound) (hbelow : options.Below state) (output : SqlKey)
    (orderBy : LogicalPlan) (floor : Nat) : Advances options floor .none state
    (state.allocate options output orderBy) := by
  have hviews : (state.allocate options output orderBy).views =
      (newPlan state.nextId options output orderBy).view :: state.views := rfl
  refine ⟨?_, ⟨Nat.le_succ _, ⟨[_], hviews, ?_⟩, [], rfl⟩, ?_, fun slot id => .inl, fun _ => id⟩
  · obtain ⟨hdescending, hids, hparents, hfilled⟩ := hsound
    constructor
    · rw [hviews]
      exact pairwise_cons.mpr ⟨hids, hdescending⟩
    · rw [hviews]
      intro view hview
      rcases mem_cons.mp hview with rfl | hview
      · exact Nat.lt_succ_self _
      · exact (hids view hview).trans (Nat.lt_succ_self _)
    · rw [hviews]
      intro view hview parent hparent
      rcases mem_cons.mp hview with rfl | hview
      · exact hbelow parent hparent
      · exact hparents view hview parent hparent
    · intro entry hentry
      exact (hfilled entry hentry).trans (Nat.lt_succ_self _)
  · intro view hview
    rw [mem_singleton.mp hview]
    exact le_rfl
  · intro view hview hid
    rcases mem_cons.mp hview with rfl | hview
    · exact .inl rfl
    · exact absurd (hsound.below view hview) (Nat.not_lt.mpr hid)

/-- The field of a sub-query gets the key of its plan. -/
theorem overwrite (hadvances : Advances options floor use state later) {slot : Slot}
    {id parent : Nat} (hnew : slot ∉ state.slots) (hid : state.nextId ≤ id)
    (hparent : later.HasParent id parent) (hfloor : floor ≤ parent) :
    Advances options floor (.field slot use) state (later.overwrite slot id) := by
  have hlt : id < later.nextId := by
    obtain ⟨view, hview, rfl, _⟩ := hparent
    exact hadvances.sound.below view hview
  refine ⟨?_, ?_, hadvances.parents, ?_, ?_⟩
  · obtain ⟨hdescending, hids, hparents, hfilled⟩ := hadvances.sound
    refine ⟨hdescending, hids, hparents, ?_⟩
    intro entry hentry
    rcases mem_cons.mp hentry with rfl | hentry
    · exact hlt
    · exact hfilled entry hentry
  · obtain ⟨hnext, hadded, more, hmore⟩ := hadvances.grows
    refine ⟨hnext, hadded, (slot, id) :: more, ?_⟩
    rw [PlannerState.overwrite, hmore, cons_append]
  · intro other entry hentry
    rcases mem_cons.mp hentry with heq | hentry
    · cases heq
      exact .inr ⟨mem_cons_self, hid, parent, hparent, hfloor⟩
    · rcases hadvances.walked other entry hentry with
        hold | ⟨hslot, hrest⟩
      · exact .inl hold
      · exact .inr ⟨mem_cons_of_mem _ hslot, hrest⟩
  · intro hapart hnodup
    obtain ⟨hinner, hfield⟩ := Bool.and_eq_true_iff.mp hapart
    refine nodup_cons.mpr ⟨fun hmem => ?_, hadvances.nodup hinner hnodup⟩
    rcases hadvances.mem_slots hmem with hwalked | hold
    · exact of_decide_eq_true hfield hwalked
    · exact hnew hold

end Advances

/-- Fill in the WHERE and the columns of a view. -/
def PlanView.complete (id : Nat) (whereCond columns : LogicalPlan) (view : PlanView) : PlanView :=
  if view.id = id then
    { view with whereCond := whereCond, projection := columns }
  else view

theorem views_complete (state : PlannerState) (id : Nat) (options : PhysicalPlanOptions)
    (whereCond columns : LogicalPlan) (keywords : List OptionalKeyword) :
    (state.modify id (completePlan options whereCond columns keywords)).views =
    state.views.map (PlanView.complete id whereCond columns) := by
  simp only [PlannerState.views, PlannerState.modify, map_map]
  apply map_congr_left
  intro plan _
  by_cases hplan : plan.id = id <;>
    simp [PlanView.complete, PhysicalPlan.view, completePlan, hplan]

theorem views_modify (state : PlannerState) (id : Nat) {change : PhysicalPlan → PhysicalPlan}
    (hchange : ∀ plan, (change plan).view = plan.view) :
    (state.modify id change).views = state.views := by
  simp only [PlannerState.views, PlannerState.modify, map_map]
  apply map_congr_left
  intro plan _
  by_cases hplan : plan.id = id <;> simp [hplan, hchange]

theorem views_markSetOperation (option : SetOption) (out prev : Nat) (state : PlannerState) :
    (markSetOperation option out prev state).views = state.views := by
  have hout : (state.modify out (secondOperand option)).views = state.views :=
    views_modify _ _ fun _ => rfl
  rw [← hout]
  exact views_modify _ _ fun _ => rfl

variable {later state : PlannerState}

theorem views_markDeferred {uniqueId bound fuel : Nat} {cur : Option Nat}
    (hmark : markDeferred uniqueId bound fuel cur state = some later) :
    later.views = state.views ∧ later.nextId = state.nextId ∧ later.walked = state.walked := by
  refine markDeferred_induction (motive := fun state later => later.views = state.views ∧
    later.nextId = state.nextId ∧ later.walked = state.walked) (fun _ => ⟨rfl, rfl, rfl⟩) ?_ hmark
  rintro state cur later ⟨hviews, hnext, hwalked⟩
  refine ⟨hviews.trans ?_, hnext, hwalked⟩
  exact views_modify _ _ fun _ => rfl

section

variable (id : Nat) (whereCond columns : LogicalPlan) (view : PlanView)

@[simp] theorem complete_id : (PlanView.complete id whereCond columns view).id = view.id := by
  unfold PlanView.complete
  split <;> rfl

@[simp] theorem complete_parentPlan : (PlanView.complete id whereCond columns view).parentPlan =
      view.parentPlan := by
  unfold PlanView.complete
  split <;> rfl

@[simp] theorem complete_outputKey : (PlanView.complete id whereCond columns view).outputKey =
      view.outputKey := by
  unfold PlanView.complete
  split <;> rfl

end

theorem complete_of_ne {id : Nat} (whereCond columns : LogicalPlan) {view : PlanView}
    (hne : view.id ≠ id) : PlanView.complete id whereCond columns view = view :=
  if_neg hne

theorem hasParent_complete (state : PlannerState) (id : Nat) (options : PhysicalPlanOptions)
    (whereCond columns : LogicalPlan) (keywords : List OptionalKeyword) (child parent : Nat) :
    (state.modify id (completePlan options whereCond columns
    keywords)).HasParent child parent ↔ state.HasParent child parent := by
  simp [PlannerState.HasParent, views_complete]

theorem Advances.complete {options : PhysicalPlanOptions} {floor : Nat} {use : SubqueryUse}
    (hsound : state.Sound) (hadvances : Advances options floor use state later) {id : Nat}
    (hid : state.nextId ≤ id) (options' : PhysicalPlanOptions) (whereCond columns : LogicalPlan)
    (keywords : List OptionalKeyword) : Advances options floor use state
    (later.modify id (completePlan options' whereCond columns keywords)) := by
  have hviews := views_complete later id options' whereCond columns keywords
  obtain ⟨hlater, hextends, hparents, hwalked, hnodup⟩ := hadvances
  refine ⟨?_, ?_, ?_, ?_, hnodup⟩
  · obtain ⟨hdescending, hids, habove, hfilled⟩ := hlater
    refine ⟨?_, ?_, ?_, hfilled⟩
    · rw [hviews]
      exact pairwise_map.mpr (hdescending.imp (by simp))
    · rw [hviews]
      intro view hview
      obtain ⟨old, hold, rfl⟩ := mem_map.mp hview
      rw [complete_id]
      exact hids old hold
    · rw [hviews]
      intro view hview parent hparent
      obtain ⟨old, hold, rfl⟩ := mem_map.mp hview
      simpa using habove old hold parent (by simpa using hparent)
  · obtain ⟨hnext, ⟨new, hnew, hids⟩, hmore⟩ := hextends
    refine ⟨hnext, ⟨new.map (PlanView.complete id whereCond columns), ?_, ?_⟩, hmore⟩
    · rw [hviews, hnew, map_append]
      congr 1
      rw [map_congr_left, map_id]
      intro view hview
      have := hsound.below view hview
      exact complete_of_ne whereCond columns (by omega)
    · intro view hview
      obtain ⟨old, hold, rfl⟩ := mem_map.mp hview
      simpa using hids old hold
  · rw [hviews]
    intro view hview hle
    obtain ⟨old, hold, rfl⟩ := mem_map.mp hview
    simpa using hparents old hold (by simpa using hle)
  · intro slot entry hentry
    rcases hwalked slot entry hentry with hold | ⟨hslot, hle, parent, hchild, h⟩
    · exact .inl hold
    · exact .inr ⟨hslot, hle, parent, (hasParent_complete _ _ _ _ _ _ _ _).mpr hchild, h⟩

structure InsertRuns (tableJoin whereCond column orderBy : LogicalPlan)
    (keys : List SqlKey) (output : SqlKey) (options : PhysicalPlanOptions)
    (state state1 state2 state3 : PlannerState) : Prop where
  start : Advances options state.nextId .none state (state.allocate options output orderBy)
  sources : Advances (options.within state.nextId) (state.nextId + 1)
    (sourceUse tableJoin) (state.allocate options output orderBy) state1
  setKeys : Advances (options.within state.nextId) state.nextId .none state1
    (state1.setKeys state.nextId keys)
  walk : Advances (options.within state.nextId) state.nextId
    (walkUse whereCond) (state1.setKeys state.nextId keys) state2
  first : Advances (options.within state.nextId) state.nextId (walkUse column) state2 state3
  below0 : (options.within state.nextId).Below (state.allocate options output orderBy)
  below1 : (options.within state.nextId).Below (state1.setKeys state.nextId keys)
  below2 : (options.within state.nextId).Below state2

section InsertRuns

variable {tableJoin whereCond column orderBy : LogicalPlan}
  {keys : List SqlKey} {output : SqlKey} {options : PhysicalPlanOptions}
  {state state1 state2 state3 : PlannerState}

theorem insertRuns (hsound : state.Sound) (hbelow : options.Below state)
    (hsources : (state.allocate options output orderBy).Sound → (options.within state.nextId).Below
    (state.allocate options output orderBy) →
    Advances (options.within state.nextId) (state.nextId + 1)
    (sourceUse tableJoin) (state.allocate options output orderBy) state1)
    (hwhere : (state1.setKeys state.nextId keys).Sound →
    (options.within state.nextId).Below (state1.setKeys state.nextId keys) →
    Advances (options.within state.nextId) state.nextId (walkUse whereCond)
    (state1.setKeys state.nextId keys) state2)
    (hcolumn : state2.Sound → (options.within state.nextId).Below state2 →
    Advances (options.within state.nextId) state.nextId (walkUse column) state2 state3) :
    InsertRuns tableJoin whereCond column orderBy keys output options state
    state1 state2 state3 := by
  have hstart := Advances.allocate hsound hbelow output orderBy state.nextId
  have hbelow0 : (options.within state.nextId).Below (state.allocate options output orderBy) := by
    intro parent heq
    rw [← Option.some.inj heq]
    exact Nat.lt_succ_self _
  have hsources := hsources hstart.sound hbelow0
  have hkeys : Advances (options.within state.nextId) state.nextId .none state1
      (state1.setKeys state.nextId keys) :=
    .of_views_eq _ _ _ hsources.sound rfl (views_modify _ _ fun _ => rfl) rfl
  have hbelow1 := hkeys.below (hsources.below hbelow0)
  have hwhere := hwhere hkeys.sound hbelow1
  have hbelow2 := hwhere.below hbelow1
  exact ⟨hstart, hsources, hkeys, hwhere, hcolumn hwhere.sound hbelow2, hbelow0, hbelow1, hbelow2⟩

namespace InsertRuns

section

variable (hruns : InsertRuns tableJoin whereCond column orderBy keys output options state
  state1 state2 state3)
include hruns

theorem mem_state3 : (newPlan state.nextId options output orderBy).view ∈ state3.views :=
  hruns.first.grows.mem_views (hruns.walk.grows.mem_views
    (hruns.setKeys.grows.mem_views (hruns.sources.grows.mem_views mem_cons_self)))

/-- The new plan of a SELECT. -/
theorem mem_views (type : LPActionType) (next : LogicalPlan) (keywords : List OptionalKeyword) :
    (⟨state.nextId, options.parent, output, whereCond, .node type column next⟩ : PlanView) ∈
    (state3.modify state.nextId (completePlan options whereCond
    (.node type column next) keywords)).views := by
  rw [views_complete]
  exact mem_map.mpr ⟨_, hruns.mem_state3, if_pos rfl⟩

/-- A new plan is the one for the SELECT, or was made for a part of it. -/
theorem new_view {type : LPActionType} {next : LogicalPlan} {keywords : List OptionalKeyword}
    {view : PlanView} (hview : view ∈ (state3.modify state.nextId (completePlan options whereCond
    (.node type column next) keywords)).views) (hid : state.nextId ≤ view.id) :
    view = ⟨state.nextId, options.parent, output, whereCond, .node type column next⟩ ∨
    view ∈ state3.views ∧ state.nextId < view.id := by
  rw [views_complete] at hview
  obtain ⟨old, hold, rfl⟩ := mem_map.mp hview
  rw [complete_id] at hid ⊢
  by_cases heq : old.id = state.nextId
  · rw [hruns.first.sound.eq_of_id_eq hold hruns.mem_state3 heq]
    exact .inl (if_pos rfl)
  · rw [complete_of_ne _ _ heq]
    exact .inr ⟨hold, Nat.lt_of_le_of_ne hid (Ne.symm heq)⟩

end

end InsertRuns

end InsertRuns

def ReturnsPlan (plan : LogicalPlan) (options : PhysicalPlanOptions)
    (state : PlannerState) (id : Nat) (later : PlannerState) : Prop :=
  state.nextId ≤ id ∧ ∃ view ∈ later.views, view.id = id ∧
    view.parentPlan = options.parent ∧ ∀ key, lpGetOutputKey plan = some key →
      view.outputKey.uniqueId = key.uniqueId

def PlansSources (tableJoin : LogicalPlan) (options : PhysicalPlanOptions)
    (state later : PlannerState) : Prop :=
  ∀ key ∈ sourceOutputs tableJoin, ∃ view ∈ later.views,
    state.nextId ≤ view.id ∧ view.parentPlan = options.parent ∧ view.outputKey.uniqueId = key

/-- What every run of the planner does to parents and fields. -/
theorem plannerRule_advances : PlannerRule
    (fun plan options state id later => state.Sound → options.Below state →
    Advances options state.nextId (planUse plan) state later ∧
    ReturnsPlan plan options state id later)
    (fun tableJoin options state later => state.Sound → options.Below state →
    Advances options state.nextId (sourceUse tableJoin) state later ∧
    PlansSources tableJoin options state later)
    (fun plan out options state later => state.Sound → options.Below state →
    options.parent = some out → Advances options out (walkUse plan) state later) where
  setOperation := by
    intro option plan0 plan1 options state out state1 prev state2 h1 h0 hsound hbelow
    obtain ⟨hadvances1, _⟩ := h1 hsound hbelow
    obtain ⟨hadvances0, hprev, view, hview, hid, hparent, hkey⟩ :=
      h0 hadvances1.sound (hadvances1.below hbelow)
    have hviews := views_markSetOperation option out prev state2
    have hboth := hadvances1.trans hadvances0 (.inl rfl) hadvances1.grows.nextId_le
    have hmark : Advances options state.nextId .none state2
        (markSetOperation option out prev state2) :=
      .of_views_eq _ _ _ hadvances0.sound rfl hviews rfl
    have hall := hboth.trans hmark (.inl rfl) le_rfl
    rw [SubqueryUse.operands_none] at hall
    refine ⟨?_, hadvances1.grows.nextId_le.trans hprev, view, ?_, hid, hparent, hkey⟩
    · rw [planUse]
      exact hall
    · rw [hviews]
      exact hview
  insert := by
    intro type column next tableJoin whereCond orderBy keys keywords output
      options state state1 state2 state3 _ hsources hwhere hcolumn hsound hbelow
    have hruns := insertRuns hsound hbelow
      (fun hs hb => (hsources hs hb).1) (fun hs hb => hwhere hs hb rfl)
      (fun hs hb => hcolumn hs hb rfl)
    have hparent : (options.within state.nextId).parent = options.parent ∨
        ∃ parent, (options.within state.nextId).parent = some parent ∧
          state.nextId ≤ parent := .inr ⟨_, rfl, le_rfl⟩
    have hstart := hruns.start.trans hruns.sources hparent (Nat.le_succ _)
    have hkeys := hstart.trans hruns.setKeys hparent le_rfl
    rw [SubqueryUse.none_operands, SubqueryUse.operands_none] at hkeys
    have hwalk := hkeys.beside hruns.walk hparent le_rfl
    have hfirst := hwalk.beside hruns.first hparent le_rfl
    refine ⟨(hfirst.complete hsound le_rfl options whereCond (.node type column next)
      keywords).congr rfl id, le_rfl, _, hruns.mem_views type next keywords, rfl, rfl, ?_⟩
    intro key hkey
    cases hkey
    rfl
  sourcesNull := fun hsound _ =>
    ⟨.of_views_eq _ _ _ hsound rfl rfl rfl, by simp [PlansSources, sourceOutputs]⟩
  sourcesEnd := fun hsound _ =>
    ⟨.of_views_eq _ _ _ hsound rfl rfl rfl, by simp [PlansSources, sourceOutputs]⟩
  sourcesTable := by
    intro ref next options state state1 hnext hsound hbelow
    have := hnext hsound hbelow
    simpa [PlansSources, sourceOutputs, sourceUse] using this
  sourcesPlan := by
    intro source next options state id state1 state2 hnull htable hsource hnext hsound hbelow
    obtain ⟨hadvances, hid, view, hview, rfl, hparent, hkey⟩ :=
      hsource hsound hbelow
    obtain ⟨hrest, houtputs⟩ := hnext hadvances.sound (hadvances.below hbelow)
    refine ⟨?_, ?_⟩
    · rw [sourceUse_plan hnull htable]
      exact hadvances.beside hrest (.inl rfl) hadvances.grows.nextId_le
    · intro key hmem
      rw [sourceOutputs.eq_3 _ _ hnull htable] at hmem
      rcases mem_append.mp hmem with hmem | hmem
      · rw [Option.mem_toList, Option.map_eq_some_iff] at hmem
        obtain ⟨output, houtput, rfl⟩ := hmem
        exact ⟨view, hrest.grows.mem_views hview, hid, hparent, hkey output houtput⟩
      · obtain ⟨other, hother, hle, hrestParent⟩ := houtputs key hmem
        exact ⟨other, hother, hadvances.grows.nextId_le.trans hle, hrestParent⟩
  walkSkip := fun _ hsound _ _ => .of_views_eq _ _ _ hsound rfl rfl rfl
  walkColumn := by
    intro ref out options state state1 hwalk hsound _ _
    simp only [walkColumnAlias, bind_some_iff] at hwalk
    obtain ⟨plan, _, hmark⟩ := hwalk
    obtain ⟨hviews, hnext, hwalked⟩ := views_markDeferred hmark
    exact .of_views_eq _ _ _ hsound hnext.symm hviews hwalked
  walkSeen := fun _ hsound _ _ => .of_views_eq _ _ _ hsound rfl rfl rfl
  walkSubquery := by
    intro slot plan out options state id state1 hseen hplan hsound hbelow hparent
    obtain ⟨hadvances, hid, view, hview, rfl, hviewParent, _⟩ :=
      hplan hsound hbelow
    have hwalk : Advances options state.nextId (planUse plan) state state1 :=
      { hadvances with }
    exact (hwalk.lower (hbelow out hparent).le).overwrite hseen hid
      ⟨view, hview, rfl, hviewParent.trans hparent⟩ le_rfl
  walkBoth := by
    intro type operand0 operand1 out options state state1 state2 hboth h0 h1 hsound hbelow hparent
    have hadvances := h0 hsound hbelow hparent
    have hrest := h1 hadvances.sound (hadvances.below hbelow) hparent
    rw [walkUse, if_pos hboth]
    exact hadvances.beside hrest (.inl rfl) le_rfl
  walkFirst := by
    intro type operand0 operand1 out options state state1 hboth hfirst h0 hsound hbelow hparent
    rw [walkUse, if_neg (by simp [hboth]), if_pos hfirst]
    exact h0 hsound hbelow hparent

end Octo
