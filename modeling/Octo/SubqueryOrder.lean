/-
Whether the planner puts every sub-query where the plan that reads it finds it
filled.  A field is planned by the SELECT that walks it first.  For a SELECT
that is planned later this is too late, and in a column that is not walked it
never happens.
-/
import Octo.PlanParents
import Octo.SetPlan

namespace Octo

open List Option PlannerState

namespace PlanView

def slots (view : PlanView) : List Slot :=
  readSlots view.whereCond ++ projectionSlots view.projection

/-- The derived tables a plan reads. -/
def keys (view : PlanView) : List Nat :=
  readKeys view.whereCond ++ projectionKeys view.projection

end PlanView

/-- The plan at `outer` is the plan at an address or a parent of it. -/
inductive Encloses (state : PlannerState) (outer : Nat) : Nat → Prop
  | refl : Encloses state outer outer
  | step {id parent : Nat} (hparent : state.HasParent id parent)
      (hencloses : Encloses state outer parent) : Encloses state outer id

theorem Encloses.le {state : PlannerState} (hsound : state.Sound)
    {outer id : Nat} (hencloses : Encloses state outer id) : outer ≤ id := by
  induction hencloses with
  | refl => exact le_rfl
  | step hparent _ ih =>
    obtain ⟨view, hview, rfl, hparent⟩ := hparent
    exact ih.trans (hsound.parents view hview _ hparent).le

/-- All that a plan reads was planned for it. -/
structure Supplied (state : PlannerState) (view : PlanView) : Prop where
  slots : ∀ slot ∈ view.slots, ∃ id, (slot, id) ∈ state.walked ∧
    view.id < id ∧ state.HasParent id view.id
  keys : ∀ key ∈ view.keys, ∃ source ∈ state.views,
    source.outputKey.uniqueId = key ∧ view.id < source.id ∧ source.parentPlan = some view.id

/-- A plan reads a field that was planned before, for a plan that is not
around it. -/
def Late (state : PlannerState) (view : PlanView) (slot : Slot) : Prop :=
  ∃ id parent, (slot, id) ∈ state.walked ∧ id < view.id ∧
    state.HasParent id parent ∧ ¬ Encloses state parent view.id

/-- What is known of plans and fields stays true. -/
structure Preserves (state later : PlannerState) : Prop where
  nextId_le : state.nextId ≤ later.nextId
  walked : ∀ entry ∈ state.walked, entry ∈ later.walked
  views : ∀ view ∈ state.views, ∃ view' ∈ later.views, view'.id = view.id ∧
    view'.parentPlan = view.parentPlan ∧ view'.outputKey = view.outputKey
  encloses : ∀ outer id, id < state.nextId → Encloses later outer id → Encloses state outer id

namespace Preserves

variable {state later : PlannerState}

theorem hasParent (hpreserves : Preserves state later) {id parent : Nat}
    (hparent : state.HasParent id parent) : later.HasParent id parent := by
  obtain ⟨view, hview, rfl, hparent⟩ := hparent
  obtain ⟨view', hview', hid, hparent', _⟩ := hpreserves.views view hview
  exact ⟨view', hview', hid, hparent'.trans hparent⟩

theorem supplied (hpreserves : Preserves state later) {view : PlanView}
    (hsupplied : Supplied state view) : Supplied later view := by
  constructor
  · intro slot hslot
    obtain ⟨id, hentry, hlt, hparent⟩ := hsupplied.slots slot hslot
    exact ⟨id, hpreserves.walked _ hentry, hlt, hpreserves.hasParent hparent⟩
  · intro key hkey
    obtain ⟨source, hsource, rfl, hlt, hparent⟩ := hsupplied.keys key hkey
    obtain ⟨source', hsource', hid, hparent', houtput⟩ :=
      hpreserves.views source hsource
    exact ⟨source', hsource', by rw [houtput], hid ▸ hlt, hparent'.trans hparent⟩

theorem late (hpreserves : Preserves state later) {view : PlanView} {slot : Slot}
    (hview : view.id < state.nextId) (hlate : Late state view slot) : Late later view slot := by
  obtain ⟨id, parent, hentry, hlt, hparent, hencloses⟩ := hlate
  exact ⟨id, parent, hpreserves.walked _ hentry, hlt, hpreserves.hasParent hparent,
    fun h => hencloses (hpreserves.encloses _ _ hview h)⟩

end Preserves

theorem Extends.preserves {state later : PlannerState} (hsound : state.Sound)
    (hextends : Extends state later) : Preserves state later := by
  refine ⟨hextends.nextId_le, fun _ => hextends.mem_walked,
    fun view hview => ⟨view, hextends.mem_views hview, rfl, rfl, rfl⟩, ?_⟩
  intro outer id hid hencloses
  induction hencloses with
  | refl => exact .refl
  | step hparent _ ih =>
    obtain ⟨view, hview, rfl, hparent⟩ := hparent
    rcases hextends.new_or_old hview with hnew | hold
    · exact absurd hid (Nat.not_lt.mpr hnew)
    · refine .step ⟨view, hold, rfl, hparent⟩ (ih ?_)
      exact (hsound.parents view hold _ hparent).trans hid

theorem preserves_complete (state : PlannerState) (id : Nat) (options : PhysicalPlanOptions)
    (whereCond columns : LogicalPlan) (keywords : List OptionalKeyword) :
    Preserves state (state.modify id (completePlan options whereCond columns keywords)) := by
  refine ⟨le_rfl, fun _ h => h, ?_, ?_⟩
  · intro view hview
    rw [views_complete]
    exact ⟨_, mem_map_of_mem hview, complete_id _ _ _ _,
      complete_parentPlan _ _ _ _, complete_outputKey _ _ _ _⟩
  · intro outer child hchild hencloses
    clear hchild
    induction hencloses with
    | refl => exact .refl
    | step hparent _ ih =>
      exact .step ((hasParent_complete _ _ _ _ _ _ _ _).mp hparent) ih

/-- Every field of a part occurs once, is walked and has not been before. -/
def SubqueryUse.Clear (use : SubqueryUse) (state : PlannerState) : Prop :=
  use.walked.Nodup ∧ use.missed = [] ∧ ∀ slot ∈ use.walked, slot ∉ state.slots

/-- A new plan reads a field that is not filled for it. -/
def Conflict (use : SubqueryUse) (state later : PlannerState) : Prop :=
  ∃ view ∈ later.views, state.nextId ≤ view.id ∧ ∃ slot ∈ view.slots,
    (slot ∈ use.walked ∧ slot ∈ state.slots) ∨ slot ∈ use.missed ∨ Late later view slot

/-- How planning a part ends whose own reads, for the plan at `out`, are
`reads`. -/
structure Outcome (use : SubqueryUse) (reads : List Slot) (out : Nat)
    (state later : PlannerState) : Prop where
  filled : use.Clear state → ∀ slot ∈ use.walked, slot ∈ later.slots
  supplied : use.owned = true → use.Clear state → ∀ view ∈ later.views,
    state.nextId ≤ view.id → Supplied later view
  read : use.Clear state → ∀ slot ∈ reads, ∃ id, (slot, id) ∈ later.walked ∧
    state.nextId ≤ id ∧ later.HasParent id out
  conflict : use.apart = true → ¬ use.Clear state →
    Conflict use state later ∨ ∃ slot ∈ reads, slot ∈ state.slots

section Sequence

variable {options options' : PhysicalPlanOptions} {floor floor' out : Nat}
  {use use' : SubqueryUse} {reads reads' : List Slot} {state middle later : PlannerState}

theorem clear_operands_iff (use' : SubqueryUse)
    (hadvances : Advances options floor use state middle)
    (hfilled : use.Clear state → ∀ slot ∈ use.walked, slot ∈ middle.slots) :
    (use.operands use').Clear state ↔ use.Clear state ∧ use'.Clear middle := by
  simp only [SubqueryUse.Clear, SubqueryUse.operands, nodup_append, append_eq_nil_iff, mem_append]
  constructor
  · rintro ⟨⟨hnodup, hnodup', hne⟩, ⟨hmissed, hmissed'⟩, hnew⟩
    refine ⟨⟨hnodup, hmissed, fun slot hslot => hnew slot (.inl hslot)⟩,
      hnodup', hmissed', fun slot hslot hmem => ?_⟩
    rcases hadvances.mem_slots hmem with hwalked | hold
    · exact hne slot hwalked slot hslot rfl
    · exact hnew slot (.inr hslot) hold
  · rintro ⟨hclear, hnodup', hmissed', hnew'⟩
    have hin := hfilled hclear
    obtain ⟨hnodup, hmissed, hnew⟩ := hclear
    refine ⟨⟨hnodup, hnodup', ?_⟩, ⟨hmissed, hmissed'⟩, ?_⟩
    · rintro slot hslot _ hslot' rfl
      exact hnew' slot hslot' (hin slot hslot)
    · rintro slot (hslot | hslot)
      · exact hnew slot hslot
      · exact fun hold => hnew' slot hslot (hadvances.grows.mem_slots hold)

theorem Outcome.of_views_eq (out : Nat) (hsound : state.Sound)
    (hviews : later.views = state.views) : Outcome .none [] out state later := by
  have hclear : SubqueryUse.none.Clear state :=
    ⟨nodup_nil, rfl, by simp [SubqueryUse.none]⟩
  refine ⟨by simp [SubqueryUse.none], ?_, by simp, fun _ h => absurd hclear h⟩
  intro _ _ view hview hid
  rw [hviews] at hview
  exact absurd (hsound.below view hview) (Nat.not_lt.mpr hid)

/-- What has to be known of two runs in sequence for a conflict in the second:
new plans of the second that read fields of the first are late, and none of
these fields is among the second's own reads. -/
structure Meets (use use' : SubqueryUse) (floor : Nat) (reads' : List Slot)
    (state middle later : PlannerState) : Prop where
  apart : use.apart = true
  apart' : use'.apart = true
  late : ∀ view ∈ later.views, middle.nextId ≤ view.id →
    ∀ slot ∈ use'.walked, slot ∈ use.walked → ∀ id parent,
      (slot, id) ∈ middle.walked → state.nextId ≤ id →
      middle.HasParent id parent → floor ≤ parent → Late later view slot
  reads : ∀ slot ∈ reads', slot ∉ use.walked

section

variable (hfirst : Outcome use reads out state middle)
  (hadvances : Advances options floor use state middle)
  (hsecond : Outcome use' reads' out middle later)
  (hadvances' : Advances options' floor' use' middle later)
include hfirst hadvances hsecond hadvances'

/-- A conflict in one of two runs. -/
theorem conflict_operands (hmeets : Meets use use' floor reads' state middle later)
    (hclear : ¬ (use.Clear state ∧ use'.Clear middle)) : Conflict (use.operands use') state later ∨
    ∃ slot ∈ reads ++ reads', slot ∈ state.slots := by
  by_cases hclear1 : use.Clear state
  · have hclear2 : ¬ use'.Clear middle := fun h => hclear ⟨hclear1, h⟩
    rcases hsecond.conflict hmeets.apart' hclear2 with
      ⟨view, hview, hid, slot, hslot, hcase⟩ | ⟨slot, hslot, hmem⟩
    · refine .inl ⟨view, hview, hadvances.grows.nextId_le.trans hid, slot, hslot, ?_⟩
      rcases hcase with ⟨hwalked, hmem⟩ | hmissed | hlate
      · obtain ⟨⟨slot, id⟩, hentry, rfl⟩ := mem_map.mp hmem
        rcases hadvances.walked slot id hentry with
          hold | ⟨hfirstWalked, hnew, parent, hparent, hfloor⟩
        · exact .inl ⟨mem_append_right _ hwalked, mem_map_of_mem hold⟩
        · exact .inr (.inr (hmeets.late view hview hid slot hwalked
            hfirstWalked id parent hentry hnew hparent hfloor))
      · exact .inr (.inl (mem_append_right _ hmissed))
      · exact .inr (.inr hlate)
    · refine .inr ⟨slot, mem_append_right _ hslot, ?_⟩
      rcases hadvances.mem_slots hmem with hwalked | hold
      · exact absurd hwalked (hmeets.reads slot hslot)
      · exact hold
  · rcases hfirst.conflict hmeets.apart hclear1 with
      ⟨view, hview, hid, slot, hslot, hcase⟩ | ⟨slot, hslot, hmem⟩
    · refine .inl ⟨view, hadvances'.grows.mem_views hview, hid, slot, hslot, ?_⟩
      rcases hcase with ⟨hwalked, hmem⟩ | hmissed | hlate
      · exact .inl ⟨mem_append_left _ hwalked, hmem⟩
      · exact .inr (.inl (mem_append_left _ hmissed))
      · exact .inr (.inr ((hadvances'.grows.preserves
          hadvances.sound).late (hadvances.sound.below view hview) hlate))
    · exact .inr ⟨slot, mem_append_left _ hslot, hmem⟩

/-- Two runs in sequence, with any measure of being apart. -/
theorem Outcome.sequence {apart : Bool}
    (hmeets : apart = true → Meets use use' floor reads' state middle later) :
    Outcome { use.operands use' with apart := apart } (reads ++ reads') out state later := by
  have hclear := clear_operands_iff use' hadvances hfirst.filled
  have hpreserves := hadvances'.grows.preserves hadvances.sound
  refine ⟨?_, ?_, ?_, ?_⟩
  · intro h slot hslot
    obtain ⟨hclear1, hclear2⟩ := hclear.mp h
    rcases mem_append.mp hslot with hslot | hslot
    · exact hadvances'.grows.mem_slots (hfirst.filled hclear1 slot hslot)
    · exact hsecond.filled hclear2 slot hslot
  · intro howned h view hview hid
    obtain ⟨howned1, howned2⟩ := Bool.and_eq_true_iff.mp howned
    obtain ⟨hclear1, hclear2⟩ := hclear.mp h
    rcases hadvances'.grows.new_or_old hview with hnew | hold
    · exact hsecond.supplied howned2 hclear2 view hview hnew
    · exact hpreserves.supplied (hfirst.supplied howned1 hclear1 view hold hid)
  · intro h slot hslot
    obtain ⟨hclear1, hclear2⟩ := hclear.mp h
    rcases mem_append.mp hslot with hslot | hslot
    · obtain ⟨id, hentry, hid, hparent⟩ := hfirst.read hclear1 slot hslot
      exact ⟨id, hpreserves.walked _ hentry, hid, hpreserves.hasParent hparent⟩
    · obtain ⟨id, hentry, hid, hparent⟩ := hsecond.read hclear2 slot hslot
      exact ⟨id, hentry, hadvances.grows.nextId_le.trans hid, hparent⟩
  · intro hapart h
    exact conflict_operands hfirst hadvances hsecond hadvances' (hmeets hapart)
      (fun hboth => h (hclear.mpr hboth))

theorem Outcome.beside (hreads : reads' ⊆ use'.walked) :
    Outcome (use.beside use') (reads ++ reads') out state later := by
  refine hfirst.sequence hadvances hsecond hadvances' fun hapart => ?_
  obtain ⟨hboth, hdisjoint⟩ := Bool.and_eq_true_iff.mp hapart
  obtain ⟨hapart1, hapart2⟩ := Bool.and_eq_true_iff.mp hboth
  have hdisjoint := of_decide_eq_true hdisjoint
  refine ⟨hapart1, hapart2, ?_, ?_⟩
  · intro view _ _ slot hslot' hslot
    exact absurd hslot' (hdisjoint slot hslot)
  · intro slot hslot' hslot
    exact hdisjoint slot hslot (hreads hslot')

end

/-- The second operand of a set operation is planned first, so that the other
comes late for the fields they share. -/
theorem late_of_operand (hbelow : options.Below state)
    (hadvances : Advances options state.nextId use state middle)
    (hadvances' : Advances options middle.nextId use' middle later) {view : PlanView}
    (hview : middle.nextId ≤ view.id) {slot : Slot} {id parent : Nat}
    (hentry : (slot, id) ∈ middle.walked) (hparent : middle.HasParent id parent)
    (hfloor : state.nextId ≤ parent) : Late later view slot := by
  have hpreserves := hadvances'.grows.preserves hadvances.sound
  have hid := hadvances.sound.filled _ hentry
  have hlt : parent < id := by
    obtain ⟨child, hchild, rfl, hparent⟩ := hparent
    exact hadvances.sound.parents child hchild parent hparent
  refine ⟨id, parent, hpreserves.walked _ hentry, hid.trans_le hview,
    hpreserves.hasParent hparent, fun hencloses => ?_⟩
  -- the way up from a new plan leaves the new plans through `options.parent`
  have hleave : ∀ inner, Encloses later parent inner →
      middle.nextId ≤ inner → ∃ above, options.parent = some above ∧
        Encloses later parent above := by
    intro inner hencloses
    induction hencloses with
    | refl =>
      intro hnew
      exact absurd (hlt.trans hid) (Nat.not_lt.mpr hnew)
    | step hchild hup ih =>
      intro hnew
      obtain ⟨child, hmem, rfl, hchild⟩ := hchild
      rcases hadvances'.parents child hmem hnew with heq | ⟨next, heq, hle⟩
      · exact ⟨_, heq ▸ hchild, hup⟩
      · obtain rfl := some.inj (hchild.symm.trans heq)
        exact ih hle
  obtain ⟨above, habove, hup⟩ := hleave view.id hencloses hview
  have hle := hup.le hadvances'.sound
  exact absurd (hbelow above habove) (Nat.not_lt.mpr (hfloor.trans hle))

theorem Outcome.operands (hbelow : options.Below state) (hfirst : Outcome use [] out state middle)
    (hadvances : Advances options state.nextId use state middle)
    (hsecond : Outcome use' [] out middle later)
    (hadvances' : Advances options middle.nextId use' middle later) :
    Outcome (use.operands use') [] out state later := by
  refine hfirst.sequence hadvances hsecond hadvances' fun hapart => ?_
  obtain ⟨hapart1, hapart2⟩ := Bool.and_eq_true_iff.mp hapart
  refine ⟨hapart1, hapart2, ?_, by simp⟩
  intro view _ hview slot _ _ id parent hentry _ hparent hfloor
  exact late_of_operand hbelow hadvances hadvances' hview hentry hparent hfloor

/-- Changes that leave the views of plans alone. -/
theorem Outcome.congr_views (hfirst : Outcome use reads out state middle)
    (hadvances : Advances options floor use state middle) (hnext : middle.nextId = later.nextId)
    (hviews : later.views = middle.views) (hwalked : later.walked = middle.walked) :
    Outcome use reads out state later := by
  have hsequence := hfirst.sequence hadvances (Outcome.of_views_eq out hadvances.sound hviews)
    (Advances.of_views_eq options floor .none hadvances.sound hnext hviews
    hwalked) (fun hapart => ⟨hapart, rfl, by simp [SubqueryUse.none], by simp⟩)
  simpa using hsequence

/-- The field of a sub-query that is planned. -/
theorem Outcome.field (hplan : Outcome use [] out state middle)
    (hadvances : Advances options floor use state middle) {slot : Slot} {id : Nat}
    (hnew : slot ∉ state.slots) (hid : state.nextId ≤ id) (hparent : middle.HasParent id out) :
    Outcome (.field slot use) [slot] out state (middle.overwrite slot id) := by
  have hclear : (SubqueryUse.field slot use).Clear state ↔ slot ∉ use.walked ∧ use.Clear state := by
    simp only [SubqueryUse.Clear, SubqueryUse.field, nodup_cons, forall_mem_cons]
    tauto
  have hpreserves : Preserves middle (middle.overwrite slot id) :=
    Extends.preserves hadvances.sound ⟨le_rfl, ⟨[], rfl, by simp⟩, [_], rfl⟩
  refine ⟨?_, ?_, ?_, ?_⟩
  · intro h other hother
    rcases mem_cons.mp hother with rfl | hother
    · exact mem_cons_self
    · exact mem_cons_of_mem _ (hplan.filled (hclear.mp h).2 other hother)
  · intro howned h view hview hle
    exact hpreserves.supplied (hplan.supplied howned (hclear.mp h).2 view hview hle)
  · intro _ other hother
    obtain rfl := mem_singleton.mp hother
    exact ⟨id, mem_cons_self, hid, hparent⟩
  · intro hapart h
    obtain ⟨hinner, hfield⟩ := Bool.and_eq_true_iff.mp hapart
    have hne : ¬ use.Clear state := fun hinnerClear =>
      h (hclear.mpr ⟨of_decide_eq_true hfield, hinnerClear⟩)
    rcases hplan.conflict hinner hne with
      ⟨view, hview, hle, other, hother, hcase⟩ | ⟨other, hother, _⟩
    · refine .inl ⟨view, hview, hle, other, hother, ?_⟩
      rcases hcase with ⟨hwalked, hmem⟩ | hmissed | hlate
      · exact .inl ⟨mem_cons_of_mem _ hwalked, hmem⟩
      · exact .inr (.inl hmissed)
      · exact .inr (.inr (hpreserves.late (hadvances.sound.below view hview) hlate))
    · simp at hother

end Sequence

section Select

variable {tableJoin whereCond column orderBy : LogicalPlan}
  {keys : List SqlKey} {output : SqlKey} {options : PhysicalPlanOptions}
  {state state1 state2 state3 : PlannerState}

def selectParts (tableJoin whereCond column : LogicalPlan) : SubqueryUse :=
  ((sourceUse tableJoin).beside (walkUse whereCond)).beside (walkUse column)

section

variable (hruns : InsertRuns tableJoin whereCond column orderBy keys output options state
  state1 state2 state3)
include hruns

/-- The plan for a SELECT finds what it reads. -/
theorem InsertRuns.supplied (hparts : Outcome (selectParts tableJoin whereCond column)
    (readSlots whereCond ++ readSlots column) state.nextId
    (state.allocate options output orderBy) state3)
    (hplanned : PlansSources tableJoin (options.within state.nextId)
    (state.allocate options output orderBy) state1) {type : LPActionType} {next : LogicalPlan}
    (howned : ∀ key ∈ readKeys whereCond ++
    projectionKeys (.node type column next), key ∈ sourceOutputs tableJoin)
    (hclear : (selectParts tableJoin whereCond column).Clear
    (state.allocate options output orderBy)) (hnext : readSlots next = []) :
    Supplied state3 ⟨state.nextId, options.parent, output, whereCond, .node type column next⟩ := by
  constructor
  · intro slot hslot
    simp only [PlanView.slots, projectionSlots, hnext, append_nil] at hslot
    obtain ⟨id, hentry, hid, hparent⟩ := hparts.read hclear slot hslot
    exact ⟨id, hentry, hid, hparent⟩
  · intro key hkey
    obtain ⟨source, hsource, hid, hparent, houtput⟩ :=
      hplanned key (howned key hkey)
    have hlast : source ∈ state3.views := hruns.first.grows.mem_views
      (hruns.walk.grows.mem_views (hruns.setKeys.grows.mem_views hsource))
    exact ⟨source, hlast, houtput, hid, hparent⟩

/-- A SELECT, from the outcomes of its parts. -/
theorem InsertRuns.outcome (hparts : Outcome (selectParts tableJoin whereCond column)
    (readSlots whereCond ++ readSlots column) state.nextId
    (state.allocate options output orderBy) state3)
    (hplanned : PlansSources tableJoin (options.within state.nextId)
    (state.allocate options output orderBy) state1) (type : LPActionType) (next : LogicalPlan)
    (keywords : List OptionalKeyword) (out : Nat) :
    Outcome (planUse (.insert (.node type column next) tableJoin whereCond
    orderBy keys keywords output)) [] out state
    (state3.modify state.nextId (completePlan options whereCond
    (.node type column next) keywords)) := by
  have hpreserves := preserves_complete state3 state.nextId options whereCond
    (.node type column next) keywords
  have hself := hruns.mem_views type next keywords
  have hclear : (planUse (.insert (.node type column next) tableJoin whereCond
      orderBy keys keywords output)).Clear state ↔ (selectParts tableJoin whereCond column).Clear
      (state.allocate options output orderBy) ∧ readSlots next = [] := by
    have hslots : (state.allocate options output orderBy).slots = state.slots :=
      rfl
    change ((selectParts tableJoin whereCond column).select (readSlots next) true).Clear state ↔ _
    simp only [SubqueryUse.Clear, SubqueryUse.select, append_eq_nil_iff, hslots]
    tauto
  constructor
  · intro h slot hslot
    exact hparts.filled (hclear.mp h).1 slot hslot
  · intro howned h view hview hid
    obtain ⟨hownedParts, hownedSelect⟩ := Bool.and_eq_true_iff.mp howned
    obtain ⟨hclearParts, hnext⟩ := hclear.mp h
    rcases hruns.new_view hview hid with rfl | ⟨hold, hlt⟩
    · exact hpreserves.supplied (hruns.supplied hparts hplanned
        (of_decide_eq_true hownedSelect) hclearParts hnext)
    · exact hpreserves.supplied (hparts.supplied hownedParts hclearParts view hold hlt)
  · simp
  · intro hapart h
    left
    by_cases hclearParts : (selectParts tableJoin whereCond column).Clear
        (state.allocate options output orderBy)
    · -- a later column has a sub-query
      have hnext : readSlots next ≠ [] := fun hnext =>
        h (hclear.mpr ⟨hclearParts, hnext⟩)
      obtain ⟨slot, hslot⟩ := exists_mem_of_ne_nil _ hnext
      refine ⟨_, hself, le_rfl, slot, ?_, .inr (.inl ?_)⟩
      · simp [PlanView.slots, projectionSlots, hslot]
      · rw [planUse]
        exact mem_append_right _ hslot
    · rw [planUse]
      rcases hparts.conflict hapart hclearParts with
        ⟨view, hview, hid, slot, hslot, hcase⟩ | ⟨slot, hslot, hmem⟩
      · have hne : view.id ≠ state.nextId := Nat.ne_of_gt hid
        refine ⟨view, by
          rw [views_complete]
          exact mem_map.mpr ⟨view, hview, complete_of_ne _ _ hne⟩,
          Nat.le_of_succ_le hid, slot, hslot, ?_⟩
        rcases hcase with hshared | hmissed | hlate
        · exact .inl hshared
        · exact .inr (.inl (mem_append_left _ hmissed))
        · exact .inr (.inr (hpreserves.late (hruns.first.sound.below view hview) hlate))
      · refine ⟨_, hself, le_rfl, slot, ?_, .inl ⟨?_, hmem⟩⟩
        · simp only [PlanView.slots, projectionSlots, ← append_assoc]
          exact mem_append_left _ hslot
        · rcases mem_append.mp hslot with hslot | hslot
          · exact mem_append_left _ (mem_append_right _ (readSlots_subset_walked whereCond hslot))
          · exact mem_append_right _ (readSlots_subset_walked column hslot)

end

end Select

/-- What every run of the planner does to the plans that read sub-queries. -/
theorem plannerRule_outcome : PlannerRule
    (fun plan options state id later => state.Sound → options.Below state →
    (Advances options state.nextId (planUse plan) state later ∧
    ReturnsPlan plan options state id later) ∧ ∀ out, Outcome (planUse plan) [] out state later)
    (fun tableJoin options state later => state.Sound → options.Below state →
    (Advances options state.nextId (sourceUse tableJoin) state later ∧
    PlansSources tableJoin options state later) ∧
    ∀ out, Outcome (sourceUse tableJoin) [] out state later)
    (fun plan out options state later => state.Sound → options.Below state →
    options.parent = some out → Advances options out (walkUse plan) state later ∧
    Outcome (walkUse plan) (readSlots plan) out state later) where
  setOperation := by
    intro option plan0 plan1 options state out state1 prev state2 h1 h0 hsound hbelow
    refine ⟨plannerRule_advances.setOperation (fun hs hb => (h1 hs hb).1)
      (fun hs hb => (h0 hs hb).1) hsound hbelow, fun root => ?_⟩
    obtain ⟨⟨hadvances1, _⟩, houtcome1⟩ := h1 hsound hbelow
    obtain ⟨⟨hadvances0, _⟩, houtcome0⟩ :=
      h0 hadvances1.sound (hadvances1.below hbelow)
    exact ((houtcome1 root).operands hbelow hadvances1 (houtcome0 root) hadvances0).congr_views
      (hadvances1.trans hadvances0 (.inl rfl) hadvances1.grows.nextId_le)
      rfl (views_markSetOperation option out prev state2) rfl
  insert := by
    intro type column next tableJoin whereCond orderBy keys keywords output
      options state state1 state2 state3 hkeys hsources hwhere hcolumn hsound hbelow
    refine ⟨plannerRule_advances.insert hkeys (fun hs hb => (hsources hs hb).1)
      (fun hs hb hp => (hwhere hs hb hp).1)
      (fun hs hb hp => (hcolumn hs hb hp).1) hsound hbelow, fun root => ?_⟩
    have hruns := insertRuns hsound hbelow (fun hs hb => (hsources hs hb).1.1)
      (fun hs hb => (hwhere hs hb rfl).1) (fun hs hb => (hcolumn hs hb rfl).1)
    obtain ⟨⟨_, hplanned⟩, hsource⟩ := hsources hruns.start.sound hruns.below0
    have hadvances := (hruns.sources.lower (Nat.le_succ _)).trans hruns.setKeys (.inl rfl) le_rfl
    rw [SubqueryUse.operands_none] at hadvances
    have hstart : Outcome (sourceUse tableJoin) [] state.nextId
        (state.allocate options output orderBy) (state1.setKeys state.nextId keys) :=
      (hsource _).congr_views hruns.sources rfl (views_modify _ _ fun _ => rfl) rfl
    have hwalk := hstart.beside hadvances (hwhere hruns.setKeys.sound hruns.below1 rfl).2 hruns.walk
      (readSlots_subset_walked whereCond)
    have hparts := hwalk.beside (hadvances.beside hruns.walk (.inl rfl) le_rfl)
      (hcolumn hruns.walk.sound hruns.below2 rfl).2 hruns.first (readSlots_subset_walked column)
    exact hruns.outcome hparts hplanned type next keywords root
  sourcesNull := fun hsound hbelow =>
    ⟨plannerRule_advances.sourcesNull hsound hbelow, fun out => .of_views_eq out hsound rfl⟩
  sourcesEnd := fun hsound hbelow =>
    ⟨plannerRule_advances.sourcesEnd hsound hbelow,
      fun out => by rw [sourceUse]; exact .of_views_eq out hsound rfl⟩
  sourcesTable := by
    intro ref next options state state1 hnext hsound hbelow
    refine ⟨plannerRule_advances.sourcesTable (fun hs hb => (hnext hs hb).1) hsound hbelow, ?_⟩
    exact (hnext hsound hbelow).2
  sourcesPlan := by
    intro source next options state id state1 state2 hnull htable hsource hnext hsound hbelow
    refine ⟨plannerRule_advances.sourcesPlan hnull htable
      (fun hs hb => (hsource hs hb).1) (fun hs hb => (hnext hs hb).1) hsound hbelow, fun out => ?_⟩
    obtain ⟨⟨hadvances, _⟩, houtcome⟩ := hsource hsound hbelow
    obtain ⟨⟨hrest, _⟩, hnextOutcome⟩ :=
      hnext hadvances.sound (hadvances.below hbelow)
    rw [sourceUse_plan hnull htable]
    exact (houtcome out).beside hadvances (hnextOutcome out) hrest (nil_subset _)
  walkSkip := by
    intro plan out options state hskip hsound hbelow hparent
    refine ⟨plannerRule_advances.walkSkip hskip hsound hbelow hparent, ?_⟩
    cases plan <;> first
      | exact .of_views_eq out hsound rfl
      | simp [walkSkips] at hskip
  walkColumn := by
    intro ref out options state state1 hwalk hsound hbelow hparent
    refine ⟨plannerRule_advances.walkColumn hwalk hsound hbelow hparent, ?_⟩
    simp only [walkColumnAlias, bind_some_iff] at hwalk
    obtain ⟨plan, _, hmark⟩ := hwalk
    exact .of_views_eq out hsound (views_markDeferred hmark).1
  walkSeen := by
    intro slot plan out options state hseen hsound hbelow hparent
    refine ⟨plannerRule_advances.walkSeen hseen hsound hbelow hparent, ?_⟩
    have hclear : ¬ (walkUse (.subquery slot plan)).Clear state := by
      exact fun hclear => hclear.2.2 slot mem_cons_self hseen
    exact ⟨fun h => absurd h hclear, fun _ h => absurd h hclear, fun h => absurd h hclear,
      fun _ _ => .inr ⟨slot, mem_singleton_self slot, hseen⟩⟩
  walkSubquery := by
    intro slot plan out options state id state1 hseen hplan hsound hbelow hparent
    refine ⟨plannerRule_advances.walkSubquery hseen
      (fun hs hb => (hplan hs hb).1) hsound hbelow hparent, ?_⟩
    obtain ⟨⟨hadvances, hid, view, hview, rfl, hviewParent, _⟩, houtcome⟩ :=
      hplan hsound hbelow
    exact (houtcome out).field hadvances hseen hid ⟨view, hview, rfl, hviewParent.trans hparent⟩
  walkBoth := by
    intro type operand0 operand1 out options state state1 state2 hboth h0 h1 hsound hbelow hparent
    refine ⟨plannerRule_advances.walkBoth hboth
      (fun hs hb hp => (h0 hs hb hp).1) (fun hs hb hp => (h1 hs hb hp).1) hsound hbelow hparent, ?_⟩
    obtain ⟨hadvances, houtcome⟩ := h0 hsound hbelow hparent
    obtain ⟨hrest, hrestOutcome⟩ :=
      h1 hadvances.sound (hadvances.below hbelow) hparent
    rw [walkUse, readSlots, if_pos hboth, if_pos hboth]
    exact houtcome.beside hadvances hrestOutcome hrest (readSlots_subset_walked operand1)
  walkFirst := by
    intro type operand0 operand1 out options state state1 hboth hfirst h0 hsound hbelow hparent
    refine ⟨plannerRule_advances.walkFirst hboth hfirst
      (fun hs hb hp => (h0 hs hb hp).1) hsound hbelow hparent, ?_⟩
    rw [walkUse, readSlots, if_neg (by simp [hboth]), if_pos hfirst,
      if_neg (by simp [hboth]), if_pos hfirst]
    exact (h0 hsound hbelow hparent).2

/-- The table that `sub` fills is there when `plan` reads it: `sub` comes
before `plan` in the list, or is run from `plan` or a plan around it. -/
def Provides (state : PlannerState) (sub plan : PhysicalPlan) : Prop :=
  (sub.deferredPlan = false ∧ [sub, plan].Sublist state.plans) ∨
    (sub.deferredPlan = true ∧ ∃ parent, sub.parentPlan = some parent ∧
      Encloses state parent plan.id)

/-- Every sub-query and every derived table that a plan reads has a plan of
its own that provides it. -/
structure Ordered (state : PlannerState) : Prop where
  slots : ∀ plan ∈ state.plans, ∀ slot ∈ plan.view.slots,
    ∃ sub ∈ state.plans, (slot, sub.id) ∈ state.walked ∧ Provides state sub plan
  keys : ∀ plan ∈ state.plans, ∀ key ∈ plan.view.keys,
    ∃ sub ∈ state.plans, sub.outputKey.uniqueId = key ∧ Provides state sub plan

variable {plans : List PhysicalPlan} {first second : PhysicalPlan}

theorem Descending.sublist_of_lt (hplans : Descending plans) (hfirst : first ∈ plans)
    (hsecond : second ∈ plans) (hlt : second.id < first.id) : [first, second].Sublist plans := by
  induction plans with
  | nil => simp at hfirst
  | cons head tail ih =>
    obtain ⟨hhead, htail⟩ := pairwise_cons.mp hplans
    rcases mem_cons.mp hfirst with rfl | hfirstTail
    · rcases mem_cons.mp hsecond with rfl | hsecondTail
      · exact absurd hlt (Nat.lt_irrefl _)
      · exact (singleton_sublist.mpr hsecondTail).cons_cons first
    · rcases mem_cons.mp hsecond with rfl | hsecondTail
      · exact absurd (hhead first hfirstTail) (Nat.not_lt.mpr hlt.le)
      · exact (ih htail hfirstTail hsecondTail).cons head

theorem Descending.lt_of_sublist (hplans : Descending plans)
    (hsublist : [first, second].Sublist plans) : second.id < first.id := by
  have hpair := List.Pairwise.sublist hsublist hplans
  simpa using hpair

section Ordered

variable {state : PlannerState}

theorem provides_of_child (hsound : state.Sound) {sub plan : PhysicalPlan}
    (hsub : sub ∈ state.plans) (hplan : plan ∈ state.plans) (hlt : plan.id < sub.id)
    (hparent : sub.parentPlan = some plan.id) : Provides state sub plan := by
  cases hdeferred : sub.deferredPlan with
  | false =>
    exact .inl ⟨hdeferred, hsound.fresh.descending.sublist_of_lt hsub hplan hlt⟩
  | true => exact .inr ⟨hdeferred, plan.id, hparent, .refl⟩

theorem ordered_of_supplied (hsound : state.Sound)
    (hsupplied : ∀ view ∈ state.views, Supplied state view) : Ordered state := by
  constructor
  · intro plan hplan slot hslot
    obtain ⟨id, hentry, hlt, view, hview, rfl, hparent⟩ :=
      (hsupplied plan.view (mem_map_of_mem hplan)).slots slot hslot
    obtain ⟨sub, hsub, rfl⟩ := mem_map.mp hview
    exact ⟨sub, hsub, hentry, provides_of_child hsound hsub hplan hlt hparent⟩
  · intro plan hplan key hkey
    obtain ⟨view, hview, hkey, hlt, hparent⟩ :=
      (hsupplied plan.view (mem_map_of_mem hplan)).keys key hkey
    obtain ⟨sub, hsub, rfl⟩ := mem_map.mp hview
    exact ⟨sub, hsub, hkey, provides_of_child hsound hsub hplan hlt hparent⟩

/-- A late field is not provided. -/
theorem not_ordered_of_late (hsound : state.Sound) (hnodup : state.slots.Nodup)
    {plan : PhysicalPlan} (hplan : plan ∈ state.plans) {slot : Slot}
    (hslot : slot ∈ plan.view.slots) (hlate : Late state plan.view slot) : ¬ Ordered state := by
  intro hordered
  obtain ⟨id, parent, hentry, hlt, ⟨view, hview, rfl, hparent⟩, hencloses⟩ :=
    hlate
  obtain ⟨sub, hsub, hsubEntry, hprovides⟩ :=
    hordered.slots plan hplan slot hslot
  have hid : sub.id = view.id := congrArg Prod.snd (inj_on_of_nodup_map hnodup hsubEntry hentry rfl)
  have heq : sub.view = view :=
    hsound.eq_of_id_eq (mem_map_of_mem hsub) hview hid
  rcases hprovides with ⟨_, hsublist⟩ | ⟨_, other, hother, hup⟩
  · have hbefore := hsound.fresh.descending.lt_of_sublist hsublist
    rw [hid] at hbefore
    exact absurd hlt (Nat.not_lt.mpr hbefore.le)
  · have hsame : some other = some parent := by
      rw [← hother, ← hparent, ← heq]
      rfl
    rw [some.inj hsame] at hup
    exact hencloses hup

end Ordered

section Plan

variable {plan : LogicalPlan} {options : PhysicalPlanOptions} {id : Nat} {state : PlannerState}

theorem generatePhysicalPlan_outcome (hparent : options.parent = none)
    (hgen : generatePhysicalPlan plan options .empty = some (id, state)) :
    Advances options 0 (planUse plan) .empty state ∧ Outcome (planUse plan) [] 0 .empty state := by
  obtain ⟨⟨hadvances, _⟩, houtcome⟩ :=
    (plannerRule_outcome.holds plan).generate hgen sound_empty
      (by simp [PhysicalPlanOptions.Below, hparent])
  exact ⟨hadvances, houtcome 0⟩

theorem clear_empty_iff (use : SubqueryUse) :
    use.Clear .empty ↔ use.walked.Nodup ∧ use.missed = [] := by
  simp [SubqueryUse.Clear, slots, empty]

section

variable (hparent : options.parent = none)
  (hgen : generatePhysicalPlan plan options .empty = some (id, state))
include hparent hgen

theorem ordered_of_clear (howned : (planUse plan).owned = true)
    (hclear : (planUse plan).walked.Nodup ∧ (planUse plan).missed = []) : Ordered state := by
  obtain ⟨hadvances, houtcome⟩ := generatePhysicalPlan_outcome hparent hgen
  apply ordered_of_supplied hadvances.sound
  intro view hview
  exact houtcome.supplied howned ((clear_empty_iff _).mpr hclear) view hview (Nat.zero_le _)

theorem clear_of_ordered (hapart : (planUse plan).apart = true)
    (hmissed : ∀ slot ∈ (planUse plan).missed, slot ∉ (planUse plan).walked)
    (hordered : Ordered state) : (planUse plan).walked.Nodup ∧ (planUse plan).missed = [] := by
  obtain ⟨hadvances, houtcome⟩ := generatePhysicalPlan_outcome hparent hgen
  by_contra hclear
  rcases houtcome.conflict hapart (mt (clear_empty_iff _).mp hclear) with
    ⟨view, hview, _, slot, hslot, hcase⟩ | ⟨slot, hslot, _⟩
  · obtain ⟨reader, hreader, rfl⟩ := mem_map.mp hview
    rcases hcase with ⟨_, hempty⟩ | hmiss | hlate
    · simp [slots, empty] at hempty
    · obtain ⟨sub, _, hentry, _⟩ := hordered.slots reader hreader slot hslot
      rcases hadvances.mem_slots (mem_map_of_mem hentry) with hwalked | hold
      · exact hmissed slot hmiss hwalked
      · simp [slots, empty] at hold
    · refine not_ordered_of_late hadvances.sound ?_ hreader hslot hlate hordered
      exact hadvances.nodup hapart (by simp [slots, empty])
  · simp at hslot

end

/-- The planner ends on plans whose columns belong to their own tables.  If no
sub-query stands in a later column and none is shared, every sub-query is
planned before the plan that reads it.  For plans in which only the operands
of set operations share sub-queries, and none in later columns, this is also
necessary. -/
theorem generatePhysicalPlan_ordered_iff (plan : LogicalPlan) (options : PhysicalPlanOptions)
    (hparent : options.parent = none) (howned : (planUse plan).owned = true) :
    (plannable plan = true → ∃ id state,
    generatePhysicalPlan plan options .empty = some (id, state)) ∧
    ∀ id state, generatePhysicalPlan plan options .empty = some (id, state) →
    ((planUse plan).walked.Nodup ∧ (planUse plan).missed = [] → Ordered state) ∧
    ((planUse plan).apart = true → (∀ slot ∈ (planUse plan).missed, slot ∉ (planUse plan).walked) →
    (Ordered state ↔ (planUse plan).walked.Nodup ∧ (planUse plan).missed = [])) :=
  ⟨fun hends => (ends plan).generate options hends PlannerState.fresh_empty,
    fun _ _ hgen => ⟨ordered_of_clear hparent hgen howned,
      fun hapart hmissed => ⟨clear_of_ordered hparent hgen hapart hmissed,
        ordered_of_clear hparent hgen howned⟩⟩⟩

end Plan

namespace SubqueryOrderWitness

open OrExpansionWitness

def innerKey : SqlKey where
  keyColumn := some ⟨names, ⟨"id"⟩⟩
  keyNum := 0
  uniqueId := 2
  value := none
  type := .advance
  isCrossReferenceKey := false
  crossReferenceOutputKey := none

/-- `(SELECT id FROM names)`, planned for the table at unique id 3. -/
def inner : LogicalPlan :=
  .insert (.node .columnList (.node .whereNode (.columnAlias ⟨⟨names, 2⟩, ⟨"id"⟩⟩) .null) .null)
    (.node .tableJoin (.table ⟨names, 2⟩) .null) .null .null [innerKey] []
    { outputKey with uniqueId := 3 }

/-- `id IN (SELECT id FROM names)` -/
def inNames : LogicalPlan :=
  .node .booleanIn (column "id") (.subquery [0] inner)

/-- `SELECT id FROM names WHERE id IN (SELECT id FROM names) AND
(id = '1' OR id = '2')` -/
def sharedQuery : LogicalPlan :=
  select (.node .booleanAnd inNames (.node .booleanOr (equals "id" "1") (equals "id" "2")))

/-- `SELECT id, 1 + (SELECT id FROM names) FROM names`; a sub-query that is a
column by itself is no plan that is verified. -/
def columnQuery : LogicalPlan :=
  .insert (.node .columnList (.node .whereNode (column "id") .null)
      (.node .columnList (.node .whereNode (.node .addition (.value ⟨.numberLiteral, "1"⟩)
        (.subquery [0] inner)) .null) .null))
    (.node .tableJoin (.table ⟨names, 0⟩) .null) .null .null [] [] outputKey

def plan (query : LogicalPlan) : Option (LogicalPlan × PlannerState) := do
  let (optimized, _) ← optimizeLogicalPlan 8 query ⟨4, 0⟩
  let (_, state) ← generatePhysicalPlan optimized ⟨none, false⟩ .empty
  some (optimized, state)

/-- The outputs of the plans in list order, each with the fields it reads. -/
def reads (state : PlannerState) : List (Nat × List Slot) :=
  state.plans.map fun plan => (plan.outputKey.uniqueId, plan.view.slots)

theorem not_ordered_of_use {query optimized : LogicalPlan} {state : PlannerState}
    (hplan : plan query = some (optimized, state)) (hapart : (planUse optimized).apart = true)
    (hmissed : ∀ slot ∈ (planUse optimized).missed, slot ∉ (planUse optimized).walked)
    (hclear : ¬ ((planUse optimized).walked.Nodup ∧ (planUse optimized).missed = [])) :
    ¬ Ordered state := by
  simp only [plan, bind_some_iff, Prod.exists, some.injEq, Prod.mk.injEq] at hplan
  obtain ⟨_, _, _, _, _, hgen, rfl, rfl⟩ := hplan
  exact fun hordered => hclear (clear_of_ordered rfl hgen hapart hmissed hordered)

end SubqueryOrderWitness

open SubqueryOrderWitness in
/-- The arms of the first query share the sub-query, which is planned for the
second arm and comes after the first.  In the second query it stands in a
later column and is not planned at all. -/
theorem shared_subquery_not_ordered :
    (∃ optimized state, plan sharedQuery = some (optimized, state) ∧
      reads state = [(1, [[0]]), (3, []), (1, [[0]])] ∧ ¬ Ordered state) ∧
    ∃ optimized state, plan columnQuery = some (optimized, state) ∧
      reads state = [(1, [[0]])] ∧ ¬ Ordered state := by
  have hshared : (plan sharedQuery).map (fun planned =>
      (reads planned.2, planUse planned.1)) = some ([(1, [[0]]), (3, []), (1, [[0]])],
        ⟨[[0], [0]], [], true, true⟩) := by decide +kernel
  have hcolumn : (plan columnQuery).map (fun planned =>
      (reads planned.2, planUse planned.1)) =
        some ([(1, [[0]])], ⟨[], [[0]], true, true⟩) := by decide +kernel
  simp only [map_eq_some_iff, Prod.mk.injEq] at hshared hcolumn
  obtain ⟨⟨optimized, state⟩, hplan, hreads, huse⟩ := hshared
  obtain ⟨⟨optimized', state'⟩, hplan', hreads', huse'⟩ := hcolumn
  refine ⟨⟨optimized, state, hplan, hreads, ?_⟩, optimized', state', hplan', hreads', ?_⟩
  · apply not_ordered_of_use hplan <;> rw [huse] <;> decide
  · apply not_ordered_of_use hplan' <;> rw [huse'] <;> decide

open SubqueryOrderWitness in
/-- `SELECT id FROM names WHERE id IN (SELECT id FROM names)` -/
theorem in_subquery_ordered : ∃ id state,
    generatePhysicalPlan (SetPlanWitness.planned inNames none []) ⟨none, false⟩
      .empty = some (id, state) ∧ Ordered state := by
  have hplanned := generatePhysicalPlan_ordered_iff
    (SetPlanWitness.planned inNames none []) ⟨none, false⟩ rfl (by decide)
  obtain ⟨id, state, hgen⟩ := hplanned.1 (by decide)
  exact ⟨id, state, hgen, (hplanned.2 id state hgen).1 (by decide)⟩

end Octo
