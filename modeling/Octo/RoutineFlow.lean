/-
The routine of a query.  `emit_physical_plan` names the plans, writes out those
that are not deferred and then the deferred ones.  A plan calls the deferred
plans it is the parent of for each of its rows, and at its end the plan behind
it, whichever kind that has.
-/
import Octo.CallTrace
import Octo.SubqueryOrder
import Mathlib

namespace Octo

open CallTrace List Bool

namespace PhysicalPlan

/-- The plan fills a cross reference. -/
def isXref (plan : PhysicalPlan) : Bool :=
  plan.outputKey.isCrossReferenceKey

def isNormal (plan : PhysicalPlan) : Bool :=
  !plan.isXref && !plan.deferredPlan

end PhysicalPlan

/-- Names of plans: `plan0` for every plan of a cross reference, `octoPlan1`
and so on for the others. -/
inductive PlanName
  | plan (number : Nat)
  | octoPlan (number : Nat)
deriving DecidableEq, Repr

/-- The plans that get a name of their own. -/
def queryPlans (plans : List PhysicalPlan) : List PhysicalPlan :=
  plans.filter fun plan => !plan.isXref

def planName (plans : List PhysicalPlan) (plan : PhysicalPlan) : PlanName :=
  if plan.isXref then .plan 0
  else .octoPlan ((queryPlans plans).findIdx (·.id = plan.id) + 1)

/-- `plan->next` and what is behind it. -/
def plansAfter : List PhysicalPlan → PhysicalPlan → List PhysicalPlan
  | [], _ => []
  | head :: rest, plan =>
    if head.id = plan.id then rest else plansAfter rest plan

/-- The plan that is called at the end.  If there are only cross references
behind the plan, NULL is dereferenced. -/
def nextPlan (plans : List PhysicalPlan) (plan : PhysicalPlan) : Option (Option PhysicalPlan) :=
  if plan.isXref then some none
  else if (plansAfter plans plan).isEmpty || plan.deferredPlan then some none
  else (((plansAfter plans plan).dropWhile (·.isXref)).head?).map some

/-- The calls in the body of the row loop. -/
def deferredCalls (plans : List PhysicalPlan) (plan : PhysicalPlan) : List PlanName :=
  (plans.filter fun other =>
    other.parentPlan = some plan.id && other.deferredPlan).map (planName plans)

def tmplPhysicalPlan (plans : List PhysicalPlan) (plan : PhysicalPlan) :
    Option (Entry PlanName) := do
  let next ← nextPlan plans plan
  some ⟨planName plans plan, deferredCalls plans plan,
    next.map (planName plans)⟩

/-- The plans that are emitted first.  The loop skips cross references and
after them deferred plans, and emits the plan it is then at. -/
def emitMain : Bool → List PhysicalPlan → List PhysicalPlan
  | _, [] => []
  | passed, plan :: rest =>
    if !passed && plan.isXref then emitMain false rest
    else if plan.deferredPlan then emitMain true rest
    else plan :: emitMain false rest

/-- The plans that are emitted after them, by a loop of the same form. -/
def emitDeferred : Bool → List PhysicalPlan → List PhysicalPlan
  | _, [] => []
  | passed, plan :: rest =>
    if !passed && plan.isXref then emitDeferred false rest
    else if !plan.deferredPlan then emitDeferred true rest
    else plan :: emitDeferred false rest

def emittedPlans (plans : List PhysicalPlan) : List PhysicalPlan :=
  emitMain false plans ++ emitDeferred false plans

def emitPhysicalPlan (plans : List PhysicalPlan) : Option (List (Entry PlanName)) :=
  (emittedPlans plans).mapM (tmplPhysicalPlan plans)

/-- A routine is started at its first label.  `rows` says how many rows the
loop of a plan goes over that is started after the events so far. -/
def runRoutine (routine : List (Entry PlanName)) (rows : List (CallTrace.Event PlanName) → Nat)
    (fuel : Nat) : Option (List (CallTrace.Event PlanName)) :=
  match routine with
  | [] => some []
  | entry :: _ => enter routine rows fuel entry.label none []

def normalNames (plans : List PhysicalPlan) : List PlanName :=
  (plans.filter PhysicalPlan.isNormal).map (planName plans)

/-- The normal plans are run once each and in list order, deferred plans from
inside their parents only. -/
structure RunsInOrder (plans : List PhysicalPlan) (trace : List (CallTrace.Event PlanName)) :
    Prop where
  normal : (trace.map CallTrace.Event.label).filter (· ∈ normalNames plans) =
    normalNames plans
  deferred : ∀ event ∈ trace, ∀ plan ∈ plans, plan.deferredPlan = true →
    event.label = planName plans plan → ∃ parent ∈ plans, plan.parentPlan = some parent.id ∧
    event.caller = some (planName plans parent)

/-- The labels are those of the normal plans in list order, apart from cross
references. -/
def NormalOnly (plans : List PhysicalPlan) (labels : List PlanName) : Prop :=
  labels.filter (· ∈ normalNames plans) = normalNames plans ∧
    ∀ plan ∈ plans, plan.deferredPlan = true → planName plans plan ∉ labels

/-- No deferred plan comes after a normal one, and no cross reference right
after a deferred plan. -/
structure DeferredFirst (plans : List PhysicalPlan) : Prop where
  before : plans.Pairwise fun first second =>
    first.isNormal = true → second.deferredPlan = false
  separate : plans.IsChain fun first second =>
    first.deferredPlan = true → second.isXref = false

instance (plans : List PhysicalPlan) : Decidable (DeferredFirst plans) :=
  decidable_of_iff (plans.Pairwise (fun first second =>
        first.isNormal = true → second.deferredPlan = false) ∧
      plans.IsChain fun first second =>
        first.deferredPlan = true → second.isXref = false)
    ⟨fun h => ⟨h.1, h.2⟩, fun h => ⟨h.before, h.separate⟩⟩

/-- Plan lists as the planner makes them. -/
structure Arranged (plans : List PhysicalPlan) : Prop where
  descending : Descending plans
  parents : ∀ plan ∈ plans, ∀ parent, plan.parentPlan = some parent → parent < plan.id
  xref : ∀ plan ∈ plans, plan.isXref = true → plan.deferredPlan = false
  last : ∃ last, plans.getLast? = some last ∧ last.isNormal = true

section Emission

variable {plans : List PhysicalPlan}

variable {plan : PhysicalPlan}

theorem mem_emitMain (hnormal : plan.isNormal = true)
    (hplan : plan ∈ plans) (passed : Bool) : plan ∈ emitMain passed plans := by
  simp only [PhysicalPlan.isNormal, and_eq_true, not_eq_true'] at hnormal
  induction plans generalizing passed with
  | nil => exact absurd hplan not_mem_nil
  | cons head rest ih =>
    rw [emitMain]
    rcases mem_cons.mp hplan with rfl | hrest
    · simp [hnormal]
    · split
      · exact ih hrest false
      · split
        · exact ih hrest true
        · exact mem_cons_of_mem _ (ih hrest false)

theorem mem_emitDeferred (hxref : plan.isXref = false) (hdeferred : plan.deferredPlan = true)
    (hplan : plan ∈ plans) (passed : Bool) : plan ∈ emitDeferred passed plans := by
  induction plans generalizing passed with
  | nil => exact absurd hplan not_mem_nil
  | cons head rest ih =>
    rw [emitDeferred]
    rcases mem_cons.mp hplan with rfl | hrest
    · simp [hxref, hdeferred]
    · split
      · exact ih hrest false
      · split
        · exact ih hrest true
        · exact mem_cons_of_mem _ (ih hrest false)

theorem mem_emittedPlans (hplan : plan ∈ plans)
    (hxref : plan.isXref = false) : plan ∈ emittedPlans plans := by
  apply mem_append.mpr
  by_cases hdeferred : plan.deferredPlan = true
  · exact Or.inr (mem_emitDeferred hxref hdeferred hplan false)
  · exact Or.inl (mem_emitMain (by simp [PhysicalPlan.isNormal, hxref, hdeferred]) hplan false)

theorem mem_of_mem_emit {passed : Bool}
    (hplan : plan ∈ emitMain passed plans ∨ plan ∈ emitDeferred passed plans) : plan ∈ plans := by
  induction plans generalizing passed with
  | nil => simp [emitMain, emitDeferred] at hplan
  | cons head rest ih =>
    rw [emitMain, emitDeferred] at hplan
    rw [mem_cons]
    grind

theorem mem_of_mem_emittedPlans (hplan : plan ∈ emittedPlans plans) : plan ∈ plans :=
  mem_of_mem_emit (mem_append.mp hplan)

/-- Where the first emitted plan stands: behind cross references and deferred
plans.  It is itself a cross reference only if it follows a deferred plan. -/
theorem emitMain_eq_cons {first : PhysicalPlan} {more : List PhysicalPlan}
    (hemit : emitMain false plans = first :: more) :
    ∃ xrefs deferred rest, plans = xrefs ++ (deferred ++ first :: rest) ∧
    (∀ plan ∈ xrefs, plan.isXref = true) ∧ (∀ plan ∈ deferred, plan.deferredPlan = true) ∧
      first.deferredPlan = false ∧ (first.isXref = true → deferred ≠ []) := by
  have hpassed : ∀ plans, emitMain true plans = first :: more →
      ∃ deferred rest, plans = deferred ++ first :: rest ∧
        (∀ plan ∈ deferred, plan.deferredPlan = true) ∧
        first.deferredPlan = false := by
    intro plans hemit
    induction plans with
    | nil => simp [emitMain] at hemit
    | cons plan rest ih =>
      by_cases hdeferred : plan.deferredPlan = true
      · simp only [emitMain, hdeferred, Bool.not_true, Bool.false_and,
          false_eq_true, if_false, if_true] at hemit
        obtain ⟨deferred, rest', rfl, hall, hfirst⟩ := ih hemit
        exact ⟨plan :: deferred, rest', rfl, by simpa [hdeferred] using hall, hfirst⟩
      · simp only [emitMain, hdeferred, Bool.not_true, Bool.false_and,
          false_eq_true, if_false, List.cons.injEq] at hemit
        obtain ⟨rfl, _⟩ := hemit
        exact ⟨[], rest, rfl, by simp, by simpa using hdeferred⟩
  induction plans with
  | nil => simp [emitMain] at hemit
  | cons plan rest ih =>
    by_cases hxref : plan.isXref = true
    · simp only [emitMain, hxref, Bool.not_false, Bool.and_self, if_true] at hemit
      obtain ⟨xrefs, deferred, rest', rfl, hxrefs, hrest⟩ := ih hemit
      exact ⟨plan :: xrefs, deferred, rest', rfl, by simpa [hxref] using hxrefs, hrest⟩
    · by_cases hdeferred : plan.deferredPlan = true
      · simp only [emitMain, hxref, hdeferred, Bool.and_false,
          false_eq_true, if_false, if_true] at hemit
        obtain ⟨deferred, rest', rfl, hall, hfirst⟩ := hpassed rest hemit
        exact ⟨[], plan :: deferred, rest', rfl, by simp,
          by simpa [hdeferred] using hall, hfirst, by simp⟩
      · simp only [emitMain, hxref, hdeferred, Bool.and_false,
          false_eq_true, if_false, List.cons.injEq] at hemit
        obtain ⟨rfl, _⟩ := hemit
        exact ⟨[], [], rest, rfl, by simp, by simp, by simpa using hdeferred,
          fun h => absurd h hxref⟩

end Emission

namespace Arranged

variable {plans : List PhysicalPlan}

/-- Plans of the query have different names. -/
theorem planName_inj (harranged : Arranged plans) {first second : PhysicalPlan}
    (hfirst : first ∈ plans) (hsecond : second ∈ plans) (hxref : first.isXref = false)
    (hname : planName plans second = planName plans first) : second = first := by
  have hother : second.isXref = false := by
    rw [← not_eq_true]
    intro hother
    simp [planName, hxref, hother] at hname
  have hidx : ∀ plan ∈ plans, plan.isXref = false →
      ∃ found, (queryPlans plans)[(queryPlans plans).findIdx
        (·.id = plan.id)]? = some found ∧ found.id = plan.id := by
    intro plan hplan hplanXref
    have hmem : plan ∈ queryPlans plans := by
      simp [queryPlans, hplan, hplanXref]
    have hlt : (queryPlans plans).findIdx (·.id = plan.id) < (queryPlans plans).length :=
      findIdx_lt_length_of_exists ⟨plan, hmem, by simp⟩
    refine ⟨_, getElem?_eq_getElem hlt, ?_⟩
    simpa using findIdx_getElem (w := hlt)
  simp only [planName, hxref, hother, false_eq_true, if_false,
    PlanName.octoPlan.injEq, Nat.add_right_cancel_iff] at hname
  obtain ⟨found, hfound, hid⟩ := hidx first hfirst hxref
  obtain ⟨found', hfound', hid'⟩ := hidx second hsecond hother
  rw [hname, hfound, Option.some.injEq] at hfound'
  apply harranged.descending.eq_of_id_eq hsecond hfirst
  rw [← hid', ← hfound', hid]

variable {plan : PhysicalPlan}

theorem isXref_of_deferred (harranged : Arranged plans) (hplan : plan ∈ plans)
    (hdeferred : plan.deferredPlan = true) : plan.isXref = false := by
  rw [← not_eq_true]
  intro hxref
  rw [harranged.xref plan hplan hxref] at hdeferred
  exact false_ne_true hdeferred

theorem planName_mem_normalNames_iff (harranged : Arranged plans) (hplan : plan ∈ plans) :
    planName plans plan ∈ normalNames plans ↔ plan.isNormal = true := by
  constructor
  · intro hmem
    obtain ⟨other, hother, hname⟩ := mem_map.mp hmem
    obtain ⟨hother, hnormal⟩ := mem_filter.mp hother
    have hxref : other.isXref = false := by
      simp only [PhysicalPlan.isNormal, and_eq_true, not_eq_true'] at hnormal
      exact hnormal.1
    rwa [harranged.planName_inj hother hplan hxref hname.symm]
  · exact fun hnormal =>
      mem_map_of_mem (mem_filter.mpr ⟨hplan, hnormal⟩)

theorem plansAfter_append (harranged : Arranged plans) {front rest : List PhysicalPlan}
    (hplans : plans = front ++ plan :: rest) : plansAfter plans plan = rest := by
  have hdescending := harranged.descending
  rw [hplans] at hdescending ⊢
  clear hplans
  induction front with
  | nil => simp [plansAfter]
  | cons head front ih =>
    rw [cons_append, Descending, pairwise_cons] at hdescending
    have hlt := hdescending.1 plan (by simp)
    rw [cons_append, plansAfter, if_neg (Nat.ne_of_gt hlt)]
    exact ih hdescending.2

/-- The plan that is called at the end, with NULL out of the way. -/
def next (plans : List PhysicalPlan) (plan : PhysicalPlan) : Option PhysicalPlan :=
  if plan.isNormal then (plansAfter plans plan).find? (!·.isXref) else none

/-- As the list ends with a normal plan there is always one to go on to. -/
theorem nextPlan_eq (harranged : Arranged plans)
    (hplan : plan ∈ plans) : nextPlan plans plan = some (next plans plan) := by
  obtain ⟨front, rest, hsplit⟩ := append_of_mem hplan
  rw [nextPlan, next, harranged.plansAfter_append hsplit]
  by_cases hxref : plan.isXref = true
  · simp [hxref, PhysicalPlan.isNormal]
  · by_cases hdeferred : plan.deferredPlan = true
    · simp [hxref, hdeferred, PhysicalPlan.isNormal]
    · have hnormal : plan.isNormal = true := by
        simp [PhysicalPlan.isNormal, hxref, hdeferred]
      rw [if_neg hxref, if_pos hnormal, find?_not_eq_head?_dropWhile]
      cases rest with
      | nil => simp
      | cons head rest =>
        obtain ⟨last, hlast, hlastNormal⟩ := harranged.last
        have hmem : last ∈ head :: rest := by
          rw [hsplit, getLast?_append, getLast?_cons_cons] at hlast
          exact mem_of_getLast? (by simpa using hlast)
        have hfound : (List.find? (!·.isXref) (head :: rest)).isSome := by
          rw [find?_isSome]
          refine ⟨last, hmem, ?_⟩
          simp only [PhysicalPlan.isNormal, and_eq_true] at hlastNormal
          exact hlastNormal.1
        obtain ⟨found, hfound⟩ := Option.isSome_iff_exists.mp hfound
        rw [find?_not_eq_head?_dropWhile] at hfound
        simp [hdeferred, hfound]

def entry (plans : List PhysicalPlan) (plan : PhysicalPlan) : Entry PlanName where
  label := planName plans plan
  calls := deferredCalls plans plan
  next := (next plans plan).map (planName plans)

def routine (plans : List PhysicalPlan) : List (Entry PlanName) :=
  (emittedPlans plans).map (entry plans)

theorem emitPhysicalPlan_eq (harranged : Arranged plans) :
    emitPhysicalPlan plans = some (routine plans) := by
  have hmapM : ∀ emitted : List PhysicalPlan, (∀ plan ∈ emitted, plan ∈ plans) →
      emitted.mapM (tmplPhysicalPlan plans) = some (emitted.map (entry plans)) := by
    intro emitted hemitted
    induction emitted with
    | nil => rfl
    | cons plan rest ih =>
      have hplan := harranged.nextPlan_eq (hemitted plan mem_cons_self)
      have hrest := ih fun other hother =>
        hemitted other (mem_cons_of_mem plan hother)
      simp [mapM_cons, tmplPhysicalPlan, hplan, hrest, entry]
  exact hmapM _ fun plan hplan => mem_of_mem_emittedPlans hplan

/-- Every label of the routine is that of a plan. -/
theorem exists_of_entryAt {label : PlanName} {found : Entry PlanName}
    (hentry : entryAt (routine plans) label = some found) :
    ∃ plan ∈ plans, label = planName plans plan ∧ found = entry plans plan := by
  have hlabel : found.label = label := by
    simpa using find?_some hentry
  obtain ⟨plan, hplan, rfl⟩ := mem_map.mp (mem_of_find?_eq_some hentry)
  exact ⟨plan, mem_of_mem_emittedPlans hplan, hlabel.symm, rfl⟩

theorem entryAt_planName (harranged : Arranged plans)
    (hplan : plan ∈ plans) (hxref : plan.isXref = false) :
    entryAt (routine plans) (planName plans plan) = some (entry plans plan) := by
  have hsome : (entryAt (routine plans) (planName plans plan)).isSome := by
    rw [entryAt, find?_isSome]
    exact ⟨entry plans plan, mem_map_of_mem (mem_emittedPlans hplan hxref), by simp [entry]⟩
  obtain ⟨found, hfound⟩ := Option.isSome_iff_exists.mp hsome
  obtain ⟨other, hother, hname, rfl⟩ := exists_of_entryAt hfound
  rw [hfound, harranged.planName_inj hplan hother hxref hname.symm]

/-- The calls of a loop are to deferred plans, from their parents. -/
theorem mem_calls_iff {label : PlanName} : label ∈ (entry plans plan).calls ↔ ∃ callee ∈ plans,
    callee.deferredPlan = true ∧ callee.parentPlan = some plan.id ∧
    label = planName plans callee := by
  simp only [entry, deferredCalls, mem_map, mem_filter, and_eq_true, decide_eq_true_eq]
  constructor
  · rintro ⟨callee, ⟨hcallee, hparent, hdeferred⟩, rfl⟩
    exact ⟨callee, hcallee, hdeferred, hparent, rfl⟩
  · rintro ⟨callee, hcallee, hdeferred, hparent, rfl⟩
    exact ⟨callee, ⟨hcallee, hparent, hdeferred⟩, rfl⟩

/-- Children have greater addresses, so calls go down in this rank. -/
def rank (plans : List PhysicalPlan) (label : PlanName) : Nat :=
  match (queryPlans plans).find? (planName plans · = label) with
  | none => (plans.map PhysicalPlan.id).sum + 1
  | some plan => (plans.map PhysicalPlan.id).sum - plan.id

theorem rank_le (plans : List PhysicalPlan) (label : PlanName) :
    rank plans label ≤ (plans.map PhysicalPlan.id).sum + 1 := by
  rw [rank]
  split <;> omega

theorem rank_planName (harranged : Arranged plans) (hplan : plan ∈ plans)
    (hxref : plan.isXref = false) : rank plans (planName plans plan) =
    (plans.map PhysicalPlan.id).sum - plan.id := by
  have hsome : ((queryPlans plans).find? (planName plans · = planName plans plan)).isSome := by
    rw [find?_isSome]
    exact ⟨plan, by simp [queryPlans, hplan, hxref], by simp⟩
  obtain ⟨found, hfound⟩ := Option.isSome_iff_exists.mp hsome
  have hname : planName plans found = planName plans plan := by
    simpa using find?_some hfound
  have hmem : found ∈ plans :=
    mem_of_mem_filter (mem_of_find?_eq_some hfound)
  rw [rank, hfound, harranged.planName_inj hplan hmem hxref hname]

theorem ranked (harranged : Arranged plans) : Ranked (routine plans) (rank plans) := by
  intro label found hfound callee hcallee
  obtain ⟨plan, hplan, rfl, rfl⟩ := exists_of_entryAt hfound
  obtain ⟨child, hchild, hdeferred, hparent, rfl⟩ := mem_calls_iff.mp hcallee
  have hxref := harranged.isXref_of_deferred hchild hdeferred
  constructor
  · have hlt := harranged.parents child hchild plan.id hparent
    have hle : child.id ≤ (plans.map PhysicalPlan.id).sum :=
      le_sum_of_mem (mem_map_of_mem hchild)
    rw [harranged.rank_planName hchild hxref]
    by_cases hplanXref : plan.isXref = false
    · rw [harranged.rank_planName hplan hplanXref]
      omega
    · have hnone : (queryPlans plans).find? (planName plans · = planName plans plan) = none := by
        rw [find?_eq_none]
        intro other hother
        simp only [queryPlans, mem_filter, not_eq_true'] at hother
        simp [planName, hother.2, hplanXref]
      simp only [rank, hnone]
      omega
  · refine ⟨_, harranged.entryAt_planName hchild hxref, ?_⟩
    simp [entry, next, PhysicalPlan.isNormal, hdeferred]

end Arranged

/-- The plans that are gone through one after the other: up to the first
deferred one, which does not go on. -/
def mainChain : List PhysicalPlan → List PhysicalPlan
  | [] => []
  | plan :: rest =>
    if plan.deferredPlan then [plan] else plan :: mainChain rest

variable {plans : List PhysicalPlan} {options : PhysicalPlanOptions}

theorem mainChain_eq_self (hplans : ∀ plan ∈ plans, plan.deferredPlan = false) :
    mainChain plans = plans := by
  induction plans with
  | nil => rfl
  | cons plan rest ih =>
    rw [forall_mem_cons] at hplans
    simp [mainChain, hplans.1, ih hplans.2]

theorem exists_deferred_of_mem_mainChain (hplans : ∃ plan ∈ plans, plan.deferredPlan = true) :
    ∃ plan ∈ mainChain plans, plan.deferredPlan = true := by
  induction plans with
  | nil => simp at hplans
  | cons plan rest ih =>
    by_cases hdeferred : plan.deferredPlan = true
    · exact ⟨plan, by simp [mainChain, hdeferred], hdeferred⟩
    · have hrest : ∃ plan ∈ rest, plan.deferredPlan = true := by
        simpa [hdeferred] using hplans
      obtain ⟨found, hfound, hfoundDeferred⟩ := ih hrest
      exact ⟨found, by simp [mainChain, hdeferred, hfound], hfoundDeferred⟩

theorem mainChain_subset (plans : List PhysicalPlan) : mainChain plans ⊆ plans := by
  induction plans with
  | nil => exact List.Subset.refl _
  | cons plan rest ih =>
    rw [mainChain]
    split
    · simp
    · exact cons_subset_cons plan ih

namespace Arranged

variable {plans : List PhysicalPlan}

/-- From any place in the list on, the labels are those of the chain. -/
theorem follows (harranged : Arranged plans) {front rest : List PhysicalPlan}
    (hplans : plans = front ++ rest) :
    Follows (routine plans) ((rest.find? (!·.isXref)).map (planName plans))
      ((mainChain (queryPlans rest)).map (planName plans)) := by
  induction rest generalizing front with
  | nil => exact Follows.done
  | cons plan rest ih =>
    have hrest := ih (by simpa using hplans : plans = (front ++ [plan]) ++ rest)
    have hplan : plan ∈ plans := by simp [hplans]
    by_cases hxref : plan.isXref = true
    · simpa [queryPlans, hxref] using hrest
    · rw [not_eq_true] at hxref
      have hentry := harranged.entryAt_planName hplan hxref
      by_cases hdeferred : plan.deferredPlan = true
      · have hnext : (entry plans plan).next = none := by
          simp [entry, next, PhysicalPlan.isNormal, hdeferred]
        have hdone : Follows (routine plans) (entry plans plan).next [] := by
          rw [hnext]
          exact Follows.done
        simpa [queryPlans, hxref, mainChain, hdeferred] using Follows.step hentry hdone
      · have hnext : (entry plans plan).next = (rest.find? (!·.isXref)).map (planName plans) := by
          simp [entry, next, PhysicalPlan.isNormal, hdeferred, hxref,
            harranged.plansAfter_append hplans]
        rw [← hnext] at hrest
        simpa [queryPlans, hxref, mainChain, hdeferred] using Follows.step hentry hrest

/-- A run that goes through `labels` outside of loops is in order if these
are the normal plans and possibly cross references. -/
theorem runsInOrder_iff (harranged : Arranged plans) {trace : List (CallTrace.Event PlanName)}
    {labels : List PlanName}
    (hmain : (trace.filter (·.caller = none)).map CallTrace.Event.label = labels)
    (hnested : ∀ event ∈ trace, event.caller = none ∨ Nested (routine plans) event) :
    RunsInOrder plans trace ↔ NormalOnly plans labels := by
  have hcalled : ∀ event ∈ trace, event.caller ≠ none →
      ∃ parent ∈ plans, ∃ plan ∈ plans, plan.deferredPlan = true ∧
      plan.parentPlan = some parent.id ∧ event.label = planName plans plan ∧
      event.caller = some (planName plans parent) := by
    intro event hevent hcaller
    obtain ⟨caller, found, heq, hfound, hlabel⟩ :=
      (hnested event hevent).resolve_left hcaller
    obtain ⟨parent, hparent, rfl, rfl⟩ := exists_of_entryAt hfound
    obtain ⟨plan, hplan, hdeferred, hchild, hname⟩ := mem_calls_iff.mp hlabel
    exact ⟨parent, hparent, plan, hplan, hdeferred, hchild, hname, heq⟩
  have hnames : (trace.map CallTrace.Event.label).filter (· ∈ normalNames plans) =
      labels.filter (· ∈ normalNames plans) := by
    rw [← hmain, filter_map, filter_map, filter_filter]
    congr 1
    apply filter_congr
    intro event hevent
    by_cases hcaller : event.caller = none
    · simp [hcaller]
    · obtain ⟨_, _, plan, hplan, hdeferred, _, hlabel, _⟩ :=
        hcalled event hevent hcaller
      have hnot : planName plans plan ∉ normalNames plans := by
        simp [harranged.planName_mem_normalNames_iff hplan, PhysicalPlan.isNormal, hdeferred]
      simp [hlabel, hnot, hcaller]
  constructor
  · intro horder
    refine ⟨hnames ▸ horder.normal, ?_⟩
    intro plan hplan hdeferred hmem
    rw [← hmain] at hmem
    obtain ⟨event, hevent, hlabel⟩ := mem_map.mp hmem
    obtain ⟨htrace, hcaller⟩ := mem_filter.mp hevent
    obtain ⟨parent, _, _, hparent⟩ :=
      horder.deferred event htrace plan hplan hdeferred hlabel
    simp [hparent] at hcaller
  · rintro ⟨hnormal, hdeferred⟩
    refine ⟨hnames.trans hnormal, ?_⟩
    intro event hevent plan hplan hplanDeferred hlabel
    by_cases hcaller : event.caller = none
    · refine absurd ?_ (hdeferred plan hplan hplanDeferred)
      rw [← hmain, ← hlabel]
      exact mem_map_of_mem (mem_filter.mpr ⟨hevent, by simp [hcaller]⟩)
    · obtain ⟨parent, hparent, child, hchild, hchildDeferred, hof, hname, hfrom⟩ :=
        hcalled event hevent hcaller
      have hxref := harranged.isXref_of_deferred hplan hplanDeferred
      have heq : child = plan := harranged.planName_inj hplan hchild hxref (hname.symm.trans hlabel)
      exact ⟨parent, hparent, heq ▸ hof, hfrom⟩

end Arranged

section Split

variable {plans xrefs deferred rest : List PhysicalPlan} {first : PhysicalPlan}

theorem pairwise_before {front : List PhysicalPlan} (hfront : ∀ plan ∈ front, plan.isNormal = false)
    (hrest : ∀ plan ∈ rest, plan.deferredPlan = false) :
    (front ++ first :: rest).Pairwise fun first second =>
      first.isNormal = true → second.deferredPlan = false := by
  rw [pairwise_append, pairwise_cons]
  refine ⟨?_, ⟨fun plan hplan _ => hrest plan hplan, ?_⟩, ?_⟩
  · apply pairwise_of_forall_mem_list
    intro plan hplan _ _ hnormal
    simp [hfront plan hplan] at hnormal
  · apply pairwise_of_forall_mem_list
    intro _ _ plan hplan _
    exact hrest plan hplan
  · intro plan hplan _ _ hnormal
    simp [hfront plan hplan] at hnormal

theorem isChain_separate {part : List PhysicalPlan}
    (hpart : (∀ plan ∈ part, plan.deferredPlan = false) ∨ ∀ plan ∈ part, plan.isXref = false) :
    part.IsChain fun first second =>
      first.deferredPlan = true → second.isXref = false := by
  apply List.Pairwise.isChain
  apply pairwise_of_forall_mem_list
  intro plan hplan second hsecond hdeferred
  rcases hpart with hpart | hpart
  · simp [hpart plan hplan] at hdeferred
  · exact hpart second hsecond

/-- With a normal plan emitted first, what matters is what is behind it. -/
theorem deferredFirst_iff (harranged : Arranged plans)
    (hplans : plans = xrefs ++ (deferred ++ first :: rest))
    (hxrefs : ∀ plan ∈ xrefs, plan.isXref = true)
    (hdeferred : ∀ plan ∈ deferred, plan.deferredPlan = true) (hnormal : first.isNormal = true) :
    DeferredFirst plans ↔ ∀ plan ∈ rest, plan.deferredPlan = false := by
  have hfirst : first.isXref = false ∧ first.deferredPlan = false := by
    simpa [PhysicalPlan.isNormal] using hnormal
  constructor
  · intro hbefore
    have hpairs := hbefore.before
    rw [hplans, pairwise_append, pairwise_append, pairwise_cons] at hpairs
    exact fun plan hplan => hpairs.2.1.2.1.1 plan hplan hnormal
  · intro hrest
    constructor
    · rw [hplans, ← append_assoc]
      apply pairwise_before _ hrest
      intro plan hplan
      rcases mem_append.mp hplan with hplan | hplan
      · simp [PhysicalPlan.isNormal, hxrefs plan hplan]
      · simp [PhysicalPlan.isNormal, hdeferred plan hplan]
    · have hxrefsDeferred : ∀ plan ∈ xrefs, plan.deferredPlan = false :=
        fun plan hplan => harranged.xref plan (by simp [hplans, hplan]) (hxrefs plan hplan)
      have hdeferredXref : ∀ plan ∈ deferred, plan.isXref = false :=
        fun plan hplan => harranged.isXref_of_deferred (by simp [hplans, hplan])
          (hdeferred plan hplan)
      rw [hplans, isChain_append, isChain_append]
      refine ⟨isChain_separate (Or.inl hxrefsDeferred), ⟨isChain_separate (Or.inr hdeferredXref),
        isChain_separate (Or.inl (by simpa [hfirst.2] using hrest)), ?_⟩, ?_⟩
      · intro _ _ plan hplan _
        rw [head?_cons, Option.mem_some_iff] at hplan
        exact hplan ▸ hfirst.1
      · intro plan hplan _ _ h
        rw [hxrefsDeferred plan (mem_of_getLast? hplan)] at h
        exact absurd h false_ne_true

/-- A cross reference is emitted first only if it follows a deferred plan. -/
theorem not_deferredFirst (hplans : plans = xrefs ++ (deferred ++ first :: rest))
    (hdeferred : ∀ plan ∈ deferred, plan.deferredPlan = true) (hne : deferred ≠ [])
    (hxref : first.isXref = true) : ¬ DeferredFirst plans := by
  intro hbefore
  have hchain := hbefore.separate
  rw [hplans, isChain_append, isChain_append] at hchain
  have hnot := hchain.2.1.2.2 _ (getLast?_eq_some_getLast hne) first
    (by simp) (hdeferred _ (getLast_mem hne))
  simp [hxref] at hnot

end Split

namespace Arranged

variable {plans : List PhysicalPlan}

theorem normalOnly_chain_iff (harranged : Arranged plans) {front rest : List PhysicalPlan}
    (hplans : plans = front ++ rest) (hfront : ∀ plan ∈ front, plan.isNormal = false) :
    NormalOnly plans ((mainChain (queryPlans rest)).map (planName plans)) ↔
    ∀ plan ∈ rest, plan.deferredPlan = false := by
  constructor
  · intro honly plan hplan
    rw [← not_eq_true]
    intro hdeferred
    have hmem : plan ∈ plans := by simp [hplans, hplan]
    have hxref := harranged.isXref_of_deferred hmem hdeferred
    have hquery : plan ∈ queryPlans rest := by
      simp [queryPlans, hplan, hxref]
    obtain ⟨found, hfound, hfoundDeferred⟩ :=
      exists_deferred_of_mem_mainChain ⟨plan, hquery, hdeferred⟩
    have hfoundMem : found ∈ plans := by
      have hrest := mem_of_mem_filter (mainChain_subset _ hfound)
      simp [hplans, hrest]
    exact honly.2 found hfoundMem hfoundDeferred (mem_map_of_mem hfound)
  · intro hrest
    have hquery : ∀ plan ∈ queryPlans rest, plan.deferredPlan = false :=
      fun plan hplan => hrest plan (mem_of_mem_filter hplan)
    have hnormal : queryPlans rest = plans.filter PhysicalPlan.isNormal := by
      rw [hplans, filter_append, filter_eq_nil_iff.mpr
        (by simpa using hfront), nil_append, queryPlans]
      apply filter_congr
      intro plan hplan
      simp [PhysicalPlan.isNormal, hrest plan hplan]
    rw [mainChain_eq_self hquery, hnormal, ← normalNames]
    refine ⟨filter_eq_self.mpr fun _ hname => decide_eq_true hname, ?_⟩
    intro plan hplan hdeferred
    rw [harranged.planName_mem_normalNames_iff hplan]
    simp [PhysicalPlan.isNormal, hdeferred]

/-- Where a routine is started, which labels it goes through from there, and
when these are the normal plans. -/
theorem exists_follows (harranged : Arranged plans) : ∃ first more labels, routine plans = first ::
    more ∧ Follows (routine plans) (some first.label) labels ∧
    (NormalOnly plans labels ↔ DeferredFirst plans) := by
  obtain ⟨last, hlast, hlastNormal⟩ := harranged.last
  have hlastMem := mem_of_getLast? hlast
  obtain ⟨first, more, hemit⟩ := exists_cons_of_ne_nil
    (ne_nil_of_mem (mem_emitMain hlastNormal hlastMem false))
  obtain ⟨xrefs, deferred, rest, hplans, hxrefs, hdeferred, hfirst, hxrefFirst⟩ :=
    emitMain_eq_cons hemit
  have hroutine : routine plans = entry plans first ::
      (more ++ emitDeferred false plans).map (entry plans) := by
    simp [routine, emittedPlans, hemit]
  by_cases hxref : first.isXref = true
  · have hentry : entryAt (routine plans) (entry plans first).label = some (entry plans first) := by
      simp [hroutine, entryAt]
    have hnext : Follows (routine plans) (entry plans first).next [] := by
      simpa [entry, next, PhysicalPlan.isNormal, hxref] using Follows.done
    refine ⟨_, _, [(entry plans first).label], hroutine, Follows.step hentry hnext, ?_⟩
    have hmem : first ∈ plans := by simp [hplans]
    have hnot : ¬ NormalOnly plans [(entry plans first).label] := by
      intro honly
      have hname : planName plans first ∉ normalNames plans := by
        simp [harranged.planName_mem_normalNames_iff hmem, PhysicalPlan.isNormal, hxref]
      have hempty := honly.1
      rw [filter_eq_nil_iff.mpr (by simpa [entry] using hname)] at hempty
      have hlastName :=
        (harranged.planName_mem_normalNames_iff hlastMem).mpr hlastNormal
      rw [← hempty] at hlastName
      exact not_mem_nil hlastName
    exact iff_of_false hnot (not_deferredFirst hplans hdeferred (hxrefFirst hxref) hxref)
  · have hnormal : first.isNormal = true := by
      simp [PhysicalPlan.isNormal, hxref, hfirst]
    have hsplit : plans = (xrefs ++ deferred) ++ first :: rest := by
      simpa using hplans
    have hfollows := harranged.follows hsplit
    rw [find?_cons_of_pos (by simpa using hxref), Option.map_some] at hfollows
    refine ⟨_, _, _, hroutine, hfollows, ?_⟩
    rw [deferredFirst_iff harranged hplans hxrefs hdeferred hnormal,
      harranged.normalOnly_chain_iff hsplit]
    · simp [hfirst]
    · intro plan hplan
      rcases mem_append.mp hplan with hplan | hplan
      · simp [PhysicalPlan.isNormal, hxrefs plan hplan]
      · simp [PhysicalPlan.isNormal, hdeferred plan hplan]

end Arranged

/-- The first address that planning a plan gives out is that of a plan. -/
theorem generatePhysicalPlan_first {plan : LogicalPlan} {state later : PlannerState} {id : Nat}
    (hsound : state.Sound) (hbelow : options.Below state)
    (hgen : generatePhysicalPlan plan options state = some (id, later)) :
    ∃ view ∈ later.views, view.id = state.nextId := by
  induction plan generalizing state later id with
  | insert columns tableJoin whereCond orderBy keys keywords output =>
    obtain ⟨_, _, view, hview, hid, _⟩ :=
      (plannerRule_advances.holds _).generate hgen hsound hbelow
    obtain ⟨_, _, _, _, rfl, _⟩ := generatePhysicalPlan_insert hgen
    exact ⟨view, hview, hid⟩
  | setOperation option plan0 plan1 _ ih1 =>
    obtain ⟨out, middle, last, hplan1, hplan0, rfl⟩ :=
      generatePhysicalPlan_setOperation hgen
    obtain ⟨view, hview, hid⟩ := ih1 hsound hbelow hplan1
    obtain ⟨hadvances1, _⟩ :=
      (plannerRule_advances.holds _).generate hplan1 hsound hbelow
    obtain ⟨hadvances0, _⟩ := (plannerRule_advances.holds _).generate hplan0
      hadvances1.sound (hadvances1.below hbelow)
    refine ⟨view, ?_, hid⟩
    rw [views_markSetOperation]
    exact hadvances0.grows.mem_views hview
  | _ => simp [generatePhysicalPlan] at hgen

/-- The planner's lists are arranged, if the plans of the outermost query are
normal ones and those of cross references are not deferred. -/
theorem Arranged.of_generate {plan : LogicalPlan} {id : Nat} {state : PlannerState}
    (hparent : options.parent = none)
    (hgen : generatePhysicalPlan plan options .empty = some (id, state))
    (hxref : ∀ plan ∈ state.plans, plan.isXref = true → plan.deferredPlan = false)
    (houter : ∀ plan ∈ state.plans, plan.parentPlan = none → plan.isNormal = true) :
    Arranged state.plans := by
  have hbelow : options.Below .empty := by
    simp [PhysicalPlanOptions.Below, hparent]
  obtain ⟨hadvances, _⟩ := (plannerRule_advances.holds plan).generate hgen
    PlannerState.sound_empty hbelow
  have hsound := hadvances.sound
  have hparents : ∀ plan ∈ state.plans, ∀ parent,
      plan.parentPlan = some parent → parent < plan.id :=
    fun plan hplan => hsound.parents plan.view (mem_map_of_mem hplan)
  refine ⟨hsound.fresh.descending, hparents, hxref, ?_⟩
  -- The plan at the first address has no parent, and none is behind it.
  obtain ⟨_, hview, hzero⟩ :=
    generatePhysicalPlan_first PlannerState.sound_empty hbelow hgen
  obtain ⟨outer, houterMem, rfl⟩ := mem_map.mp hview
  obtain ⟨front, rest, hsplit⟩ := append_of_mem houterMem
  have hrest : rest = [] := by
    have hdescending := hsound.fresh.descending
    rw [Descending, hsplit, pairwise_append, pairwise_cons] at hdescending
    apply eq_nil_iff_forall_not_mem.mpr
    intro other hother
    have hlt := hdescending.2.1.1 other hother
    rw [show outer.id = 0 from hzero] at hlt
    exact Nat.not_lt_zero _ hlt
  refine ⟨outer, by simp [hsplit, hrest], houter outer houterMem ?_⟩
  cases hcase : outer.parentPlan with
  | none => rfl
  | some parent =>
    have hlt := hparents outer houterMem parent hcase
    rw [show outer.id = 0 from hzero] at hlt
    exact absurd hlt (Nat.not_lt_zero _)

/-- Every routine that is emitted for a query comes to an end, however many
rows its loops go over.  Its plans are run in order exactly if in the list
deferred plans stand before normal ones and no cross reference follows a
deferred plan. -/
theorem generatePhysicalPlan_runsInOrder_iff (plan : LogicalPlan) (options : PhysicalPlanOptions)
    (id : Nat) (state : PlannerState) (hparent : options.parent = none)
    (hgen : generatePhysicalPlan plan options .empty = some (id, state))
    (hxref : ∀ plan ∈ state.plans, plan.isXref = true → plan.deferredPlan = false)
    (houter : ∀ plan ∈ state.plans, plan.parentPlan = none → plan.isNormal = true) :
    ∃ routine enough, emitPhysicalPlan state.plans = some routine ∧
    ∀ rows fuel, enough < fuel → ∃ trace, runRoutine routine rows fuel = some trace ∧
    (RunsInOrder state.plans trace ↔ DeferredFirst state.plans) := by
  have harranged := Arranged.of_generate hparent hgen hxref houter
  obtain ⟨first, more, labels, hroutine, hfollows, honly⟩ :=
    harranged.exists_follows
  refine ⟨_, (state.plans.map PhysicalPlan.id).sum + 1 + labels.length,
    harranged.emitPhysicalPlan_eq, ?_⟩
  intro rows fuel hfuel
  obtain ⟨trace, htrace, hmain, hnested⟩ := enter_follows harranged.ranked rows
    (Arranged.rank_le state.plans) hfollows hfuel []
  refine ⟨trace, ?_, ?_⟩
  · rw [hroutine] at htrace ⊢
    simpa [runRoutine] using htrace
  · rw [harranged.runsInOrder_iff hmain hnested, honly]

namespace RoutineFlowWitness

open OrExpansionWitness SubqueryOrderWitness

/-- `(SELECT id FROM names n WHERE n.firstName = names.firstName)`, for the
row of `names` at hand. -/
def correlated : LogicalPlan :=
  .insert (.node .columnList (.node .whereNode (.columnAlias ⟨⟨names, 2⟩, ⟨"id"⟩⟩) .null) .null)
    (.node .tableJoin (.table ⟨names, 2⟩) .null)
    (.node .booleanEquals (.columnAlias ⟨⟨names, 2⟩, ⟨"firstName"⟩⟩)
      (column "firstName")) .null [innerKey] []
    { outputKey with uniqueId := 3 }

/-- `(SELECT id FROM names)` -/
def uncorrelated : LogicalPlan :=
  .insert (.node .columnList (.node .whereNode (.columnAlias ⟨⟨names, 4⟩, ⟨"id"⟩⟩) .null) .null)
    (.node .tableJoin (.table ⟨names, 4⟩) .null) .null .null
    [{ innerKey with uniqueId := 4 }] [] { outputKey with uniqueId := 5 }

def inCorrelated : LogicalPlan :=
  .node .booleanIn (column "id") (.subquery [0] correlated)

/-- `SELECT id FROM names WHERE id IN (correlated) AND id IN (uncorrelated)` -/
def twoSubqueries : LogicalPlan :=
  select (.node .booleanAnd inCorrelated
    (.node .booleanIn (column "id") (.subquery [1] uncorrelated)))

/-- `SELECT id FROM names WHERE firstName = 'a' AND id IN (correlated)` -/
def xrefAndSubquery : LogicalPlan :=
  select (.node .booleanAnd (equals "firstName" "a") inCorrelated)

/-- Optimise, plan, emit and run a query whose loops find one row each.  The
result is the trace with the names of the normal plans. -/
def run (query : LogicalPlan) : Option (List (CallTrace.Event PlanName) × List PlanName) := do
  let (optimized, _) ← optimizeLogicalPlan 8 query ⟨6, 0⟩
  let (_, state) ← generatePhysicalPlan optimized ⟨none, false⟩ .empty
  let routine ← emitPhysicalPlan state.plans
  let trace ← runRoutine routine (fun _ => 1) 8
  some (trace, normalNames state.plans)

theorem exists_of_run {query : LogicalPlan} {trace : List (CallTrace.Event PlanName)}
    {normals : List PlanName} (hrun : run query = some (trace, normals))
    (hmissed : (trace.map CallTrace.Event.label).filter (· ∈ normals) ≠ normals) :
    ∃ optimized counters id state routine,
    optimizeLogicalPlan 8 query ⟨6, 0⟩ = some (optimized, counters) ∧
    generatePhysicalPlan optimized ⟨none, false⟩ .empty = some (id, state) ∧
    emitPhysicalPlan state.plans = some routine ∧ runRoutine routine (fun _ => 1) 8 = some trace ∧
    ¬ RunsInOrder state.plans trace := by
  simp only [run, bind_some_iff, Prod.exists, Option.some.injEq, Prod.mk.injEq] at hrun
  obtain ⟨optimized, counters, hoptimize, id, state, hgen, routine, hemit, _,
    htrace, rfl, rfl⟩ := hrun
  exact ⟨optimized, counters, id, state, routine, hoptimize, hgen, hemit,
    htrace, fun horder => hmissed horder.normal⟩

end RoutineFlowWitness

open RoutineFlowWitness in
/-- The plan of the second sub-query goes on to the deferred one, which ends
the run: the query itself is never run.  With a cross reference between a
deferred plan and the query, the first label is that of the cross reference. -/
theorem outer_query_not_run : (∃ optimized counters id state routine,
      optimizeLogicalPlan 8 twoSubqueries ⟨6, 0⟩ = some (optimized, counters) ∧
      generatePhysicalPlan optimized ⟨none, false⟩ .empty = some (id, state) ∧
      emitPhysicalPlan state.plans = some routine ∧ runRoutine routine (fun _ => 1) 8 =
      some [⟨.octoPlan 1, none⟩, ⟨.octoPlan 2, none⟩] ∧
      ¬ RunsInOrder state.plans [⟨.octoPlan 1, none⟩, ⟨.octoPlan 2, none⟩]) ∧
    ∃ optimized counters id state routine, optimizeLogicalPlan 8 xrefAndSubquery ⟨6, 0⟩ =
      some (optimized, counters) ∧
      generatePhysicalPlan optimized ⟨none, false⟩ .empty = some (id, state) ∧
      emitPhysicalPlan state.plans = some routine ∧
      runRoutine routine (fun _ => 1) 8 = some [⟨.plan 0, none⟩] ∧
      ¬ RunsInOrder state.plans [⟨.plan 0, none⟩] := by
  have htwo : run twoSubqueries = some ([⟨.octoPlan 1, none⟩, ⟨.octoPlan 2, none⟩],
      [.octoPlan 1, .octoPlan 3]) := by decide +kernel
  have hxref : run xrefAndSubquery = some ([⟨.plan 0, none⟩], [.octoPlan 2]) := by decide +kernel
  exact ⟨exists_of_run htwo (by decide), exists_of_run hxref (by decide)⟩

open RoutineFlowWitness in
/-- `SELECT id FROM names WHERE id IN (correlated)` -/
theorem correlated_runs_in_order : ∃ id state routine enough,
    generatePhysicalPlan (SetPlanWitness.planned inCorrelated none [])
    ⟨none, false⟩ .empty = some (id, state) ∧ emitPhysicalPlan state.plans = some routine ∧
    ∀ rows fuel, enough < fuel → ∃ trace, runRoutine routine rows fuel = some trace ∧
    RunsInOrder state.plans trace := by
  have hplan : (generatePhysicalPlan (SetPlanWitness.planned inCorrelated none
      []) ⟨none, false⟩ .empty).map (fun planned =>
        (planned.2.plans.all fun plan => !(plan.isXref && plan.deferredPlan),
          planned.2.plans.all fun plan =>
            plan.parentPlan.isSome || plan.isNormal,
          decide (DeferredFirst planned.2.plans))) =
      some (true, true, true) := by decide +kernel
  simp only [Option.map_eq_some_iff, Prod.exists, Prod.mk.injEq,
    all_eq_true, decide_eq_true_eq] at hplan
  obtain ⟨id, state, hgen, hxref, houter, hfirst⟩ := hplan
  obtain ⟨routine, enough, hemit, hruns⟩ := generatePhysicalPlan_runsInOrder_iff
    _ ⟨none, false⟩ id state rfl hgen
    (fun plan hplan hisXref => by simpa [hisXref] using hxref plan hplan)
    (fun plan hplan hparent => by simpa [hparent] using houter plan hplan)
  refine ⟨id, state, routine, enough, hgen, hemit, ?_⟩
  intro rows fuel hfuel
  obtain ⟨trace, htrace, horder⟩ := hruns rows fuel hfuel
  exact ⟨trace, htrace, horder.mpr hfirst⟩

end Octo
