/-
Whether the index mirrors the table after each plan of a chain of set
operations.  An EXCEPT leaves the count of a row in place when it takes the last
copy away, and an INTERSECT clears the rows it keeps from the index.
-/
import Octo.SetOperations
import Octo.SetPlan

namespace Octo

open GlobalTree Subscripts List

variable {σ : Type*} [Subscripts σ] {n uniqueId : ℕ}

/-- The index has a row at an id exactly if the table has, and `$DATA` of a
row is non-zero in the index exactly if the table has a copy of it. -/
structure Mirrored (n uniqueId : ℕ) (cursor : Cursor σ) : Prop where
  indexed : ∀ v row, row.length = n → (cursor.Indexed row v ↔ cursor.Holds uniqueId v row)
  data : ∀ row, row.length = n → (cursor.index.data row ≠ 0 ↔ row ∈ cursor.rows uniqueId)

variable {cursor : Cursor σ}

theorem Formed.mirrors_iff (hformed : Formed n uniqueId cursor) :
    Mirrors n uniqueId cursor ↔ Mirrored n uniqueId cursor := by
  constructor
  · intro hmirrors
    refine ⟨hmirrors.indexed, fun row hrow => ?_⟩
    rw [Global.data_ne_zero, hformed.hasData_iff hrow, hmirrors.counted row hrow]
  · intro hmirrored
    refine ⟨⟨hformed, hmirrored.indexed⟩, fun row hrow => ?_⟩
    rw [← hformed.hasData_iff hrow, ← Global.data_ne_zero, hmirrored.data row hrow]

theorem Mirrors.mirrored (hmirrors : Mirrors n uniqueId cursor) : Mirrored n uniqueId cursor :=
  hmirrors.formed.mirrors_iff.mp hmirrors

/-- The rows before a step and those of its operand for which the index
mirrors the table afterwards: an EXCEPT takes no last copy, and an INTERSECT
finds no row. -/
def PPSetOperation.keepsMirror {ρ : Type*} [DecidableEq ρ] :
    PPSetOperation → Multiset ρ → Multiset ρ → Prop
  | .notSet, _, _ => True
  | .union, _, _ => True
  | .except, before, operand =>
    ∀ row ∈ before, operand.count row < before.count row
  | .intersect, before, _ => before = 0

/-- A plan that carries on with the output of the plans before it. -/
structure Continues (uniqueId : ℕ) (plan : PhysicalPlan) : Prop where
  output : plan.outputKey.uniqueId = uniqueId
  operation : plan.setOperation ≠ .notSet
  stash : plan.stashColumnsInKeys = false
  index : plan.maintainColumnwiseIndex = true

section Steps

variable {plan : PhysicalPlan} {rows : List (List σ)} {cursor : Cursor σ}

theorem except_mirrors_iff (houtput : plan.outputKey.uniqueId = uniqueId)
    (hoperation : plan.setOperation = .except) (hrows : ∀ row ∈ rows, row.length = n)
    (hmirrors : Mirrors n uniqueId cursor) : Mirrors n uniqueId (rows.foldl (rowBody plan) cursor) ↔
    ∀ row ∈ cursor.rows uniqueId, (rows : Multiset (List σ)).count row <
    (cursor.rows uniqueId).count row := by
  obtain ⟨htracks, hsub, hcounted⟩ :=
    except_loop houtput hoperation hrows hmirrors.toTracks
  have hmem : ∀ row, row ∈ (rows.foldl (rowBody plan) cursor).rows uniqueId ↔
      (rows : Multiset (List σ)).count row < (cursor.rows uniqueId).count row := by
    intro row
    rw [hsub, ← Multiset.count_pos, Multiset.count_sub, Nat.sub_pos_iff_lt]
  constructor
  · intro hlater row hrow
    obtain ⟨v, hholds⟩ := Cursor.mem_rows.mp hrow
    have hlength := (hmirrors.formed.holds_ofNat hholds).1
    rw [← hmem, ← hlater.counted row hlength, hcounted row hlength, hmirrors.counted row hlength]
    exact hrow
  · intro hcopies
    refine ⟨htracks, fun row hlength => ?_⟩
    rw [hcounted row hlength, hmirrors.counted row hlength, hmem]
    refine ⟨hcopies row, fun hlt => ?_⟩
    exact Multiset.count_pos.mp (Nat.zero_lt_of_lt hlt)

/-- The walk meets the first id in the index. -/
theorem Formed.exists_remaining (hn : 0 < n) (hformed : Formed n uniqueId cursor)
    (hexists : ∀ row, row.length = n → cursor.Counted row → ∃ v, cursor.Indexed row v)
    {row : List σ} {v : σ} (hindexed : cursor.Indexed row v) :
    ∃ first w, first.length = n ∧ cursor.Indexed first w ∧ w ∈ remaining cursor := by
  have hmem : row ++ [v] ∈ indexKeys cursor := Global.isSome_get.mp hindexed
  have hpaired := hformed.paired hexists
  rw [hformed.remaining_eq hn]
  cases hkeys : indexKeys cursor with
  | nil => simp [hkeys] at hmem
  | cons first tail =>
    rw [hkeys] at hpaired
    obtain ⟨hlength, w, rest, rfl⟩ := hpaired.head
    have hfirst : cursor.Indexed first w := by
      apply Global.isSome_get.mpr
      change first ++ [w] ∈ indexKeys cursor
      simp [hkeys]
    obtain ⟨_, id, _, rfl⟩ := hformed.indexed_ofNat hlength hfirst
    refine ⟨first, _, hlength, hfirst, ?_⟩
    simp [Global.everyOther, lastPieces, lastPiece_ofNat]

theorem Leaves.mirrors_iff (hn : 0 < n) (hmirrors : Mirrors n uniqueId cursor)
    {later last : Cursor σ} (hleaves : Leaves n uniqueId rows cursor later)
    (hdeleted : Deleted n uniqueId (remaining later) later last) :
    Mirrors n uniqueId last ↔ cursor.rows uniqueId = 0 := by
  have hindexed : ∀ row v, last.Indexed row v ↔ later.Indexed row v := by
    intro row v
    rw [Cursor.Indexed, hdeleted.index, Cursor.Indexed]
  have hholds : ∀ v row, last.Holds uniqueId v row ↔
      cursor.Holds uniqueId v row ∧ v ∉ remaining later := by
    intro v row
    rw [hdeleted.holds, hleaves.holds]
  constructor
  · intro hlast
    by_contra hne
    obtain ⟨row, hrow⟩ := Multiset.exists_mem_of_ne_zero hne
    obtain ⟨v, hv⟩ := Cursor.mem_rows.mp hrow
    have hlength := (hmirrors.formed.holds_ofNat hv).1
    -- an id that the walk meets would be in the index and not in the table
    have hnone : ∀ other w, ¬ later.Indexed other w := by
      intro other w hw
      obtain ⟨first, u, hfirst, hu, hremaining⟩ :=
        hleaves.formed.exists_remaining hn (hleaves.exists_id hmirrors) hw
      have hgone := (hlast.indexed u first hfirst).mp ((hindexed first u).mpr hu)
      exact ((hholds u first).mp hgone).2 hremaining
    have hmet : remaining later = [] := by
      rw [hleaves.formed.remaining_eq hn]
      cases hkeys : indexKeys later with
      | nil => rfl
      | cons first tail =>
        have hpaired := hleaves.formed.paired (hleaves.exists_id hmirrors)
        rw [hkeys] at hpaired
        obtain ⟨_, w, rest, rfl⟩ := hpaired.head
        refine absurd (Global.isSome_get.mpr ?_) (hnone first w)
        change first ++ [w] ∈ indexKeys later
        simp [hkeys]
    have hkept := (hholds v row).mpr ⟨hv, by simp [hmet]⟩
    exact hnone row v ((hindexed row v).mp ((hlast.indexed v row hlength).mpr hkept))
  · intro hzero
    have hnone : ∀ v row, ¬ cursor.Holds uniqueId v row := by
      intro v row hv
      have hmem := Cursor.mem_rows.mpr ⟨v, hv⟩
      simp [hzero] at hmem
    refine ⟨⟨hdeleted.formed, fun v row hrow => ?_⟩, fun row hrow => ?_⟩
    · rw [hindexed, hleaves.indexed_iff hmirrors hrow, hholds]
      simp [hnone]
    · rw [Cursor.mem_rows, Cursor.Counted, hdeleted.index, ← Cursor.Counted,
        hleaves.counted row hrow, hmirrors.counted row hrow, hzero]
      simp [hholds, hnone]

/-- One step of a chain. -/
theorem Continues.step (hn : 0 < n) (hplan : Continues uniqueId plan)
    (hrows : ∀ row ∈ rows, row.length = n) (hmirrors : Mirrors n uniqueId cursor) :
    Formed n uniqueId (runPlan plan rows cursor) ∧ (Mirrors n uniqueId (runPlan plan rows cursor) ↔
    plan.setOperation.keepsMirror (cursor.rows uniqueId) (rows : Multiset (List σ))) := by
  have hstart := startPlan_of_ne_notSet hplan.operation cursor
  cases hoperation : plan.setOperation with
  | notSet => exact absurd hoperation hplan.operation
  | union =>
    have hprojects : Projects uniqueId plan :=
      ⟨hplan.output, Or.inr hoperation, hplan.stash, hplan.index⟩
    rw [runPlan_of_ne_intersect (by rw [hoperation]; decide), hstart]
    obtain ⟨hlater, _⟩ := hprojects.loop hrows hmirrors
    exact ⟨hlater.formed, iff_of_true hlater trivial⟩
  | except =>
    rw [runPlan_of_ne_intersect (by rw [hoperation]; decide), hstart]
    obtain ⟨htracks, _⟩ :=
      except_loop hplan.output hoperation hrows hmirrors.toTracks
    exact ⟨htracks.formed, except_mirrors_iff hplan.output hoperation hrows hmirrors⟩
  | intersect =>
    obtain ⟨rfl, _, _, hindex⟩ := hplan
    rw [runPlan, hstart, if_pos hoperation]
    have hleaves := intersect_loop rfl hoperation hindex hrows hmirrors.formed
    have hdeleted := deleteRemaining_deleted hleaves.formed
    exact ⟨hdeleted.formed, hleaves.mirrors_iff hn hmirrors hdeleted⟩

end Steps

/-- Run plans one after the other, each on its own rows. -/
def runPlans (steps : List (PhysicalPlan × List (List σ))) (cursor : Cursor σ) : Cursor σ :=
  steps.foldl (fun cursor step => runPlan step.1 step.2 cursor) cursor

variable {α : Type*} {step : α} {rest : List α}

theorem forall_prefix_cons {P : List α → Prop} : (∀ front, front <+: step :: rest → P front) ↔
    P [] ∧ ∀ front, front <+: rest → P (step :: front) := by
  constructor
  · intro hall
    refine ⟨hall [] nil_prefix, fun front hfront => hall _ ?_⟩
    exact prefix_cons_iff.mpr (Or.inr ⟨front, rfl, hfront⟩)
  · rintro ⟨hnil, hcons⟩ front hfront
    rcases prefix_cons_iff.mp hfront with rfl | ⟨tail, rfl, htail⟩
    · exact hnil
    · exact hcons tail htail

theorem forall_snoc_prefix_cons {P : List α → α → Prop} :
    (∀ front last, front ++ [last] <+: step :: rest → P front last) ↔
    P [] step ∧ ∀ front last, front ++ [last] <+: rest → P (step :: front) last := by
  constructor
  · intro hall
    refine ⟨hall [] step ?_, fun front last hfront => hall _ _ ?_⟩
    · exact cons_prefix_cons.mpr ⟨rfl, nil_prefix⟩
    · exact cons_prefix_cons.mpr ⟨rfl, hfront⟩
  · rintro ⟨hnil, hcons⟩ front last hfront
    cases front with
    | nil =>
      obtain ⟨rfl, _⟩ := cons_prefix_cons.mp hfront
      exact hnil
    | cons first front =>
      obtain ⟨rfl, hrest⟩ := cons_prefix_cons.mp hfront
      exact hcons front last hrest

/-- A chain that goes on from a mirrored state is mirrored after every step
exactly if every step keeps the mirror. -/
theorem runPlans_mirrored_iff (hn : 0 < n) {steps : List (PhysicalPlan × List (List σ))}
    (hsteps : ∀ step ∈ steps, Continues uniqueId step.1 ∧ ∀ row ∈ step.2, row.length = n)
    (hmirrors : Mirrors n uniqueId cursor) :
    (∀ front, front <+: steps → Mirrored n uniqueId (runPlans front cursor)) ↔
    ∀ front step, front ++ [step] <+: steps →
    step.1.setOperation.keepsMirror ((runPlans front cursor).rows uniqueId)
    (step.2 : Multiset (List σ)) := by
  induction steps generalizing cursor with
  | nil =>
    refine iff_of_true (fun front hfront => ?_) (by simp)
    rw [prefix_nil.mp hfront]
    exact hmirrors.mirrored
  | cons step rest ih =>
    obtain ⟨hplan, hrows⟩ := hsteps step (by simp)
    obtain ⟨hformed, hiff⟩ := hplan.step hn hrows hmirrors
    rw [forall_prefix_cons, forall_snoc_prefix_cons]
    refine (and_iff_right hmirrors.mirrored).trans ?_
    by_cases hkeeps : step.1.setOperation.keepsMirror
        (cursor.rows uniqueId) (step.2 : Multiset (List σ))
    · have hrest := ih (fun other hother =>
        hsteps other (mem_cons_of_mem _ hother)) (hiff.mpr hkeeps)
      exact hrest.trans (and_iff_right hkeeps).symm
    · refine iff_of_false (fun hall => hkeeps ?_) (fun hall => hkeeps hall.1)
      exact hiff.mp (hformed.mirrors_iff.mpr (hall [] nil_prefix))

/-- The plans of a set operation: the first starts the output, and the others
carry on with it. -/
structure OperandChain (uniqueId : ℕ) (first : PhysicalPlan) (rest : List PhysicalPlan) : Prop where
  projects : Projects uniqueId first
  operation : first.setOperation = .notSet
  continues : ∀ plan ∈ rest, Continues uniqueId plan

theorem SetOption.setOperation_ne_notSet (option : SetOption) : option.setOperation ≠ .notSet := by
  cases option <;> decide

theorem SetExpr.steps_ne_notSet (expr : SetExpr) (operation : PPSetOperation) (force : Bool) :
    (operation ≠ .notSet → ∀ step ∈ expr.steps operation force, step.1 ≠ .notSet) ∧
    ∀ step ∈ (expr.steps operation force).tail, step.1 ≠ .notSet := by
  induction expr generalizing operation force with
  | select distinct arms =>
    simp only [steps, mem_cons, tail_cons, mem_replicate]
    refine ⟨?_, ?_⟩
    · rintro hoperation step (rfl | ⟨_, rfl⟩)
      · exact hoperation
      · intro hunion
        cases hunion
    · rintro step ⟨_, rfl⟩ hunion
      cases hunion
  | setOperation option left right ihLeft ihRight =>
    obtain ⟨hleft, hleftTail⟩ := ihLeft operation (force || option.isDistinct)
    obtain ⟨hright, _⟩ := ihRight option.setOperation option.isDistinct
    have hrightAll := hright option.setOperation_ne_notSet
    obtain ⟨distinct, rest, hsteps⟩ := left.steps_eq
    simp only [steps, mem_append]
    refine ⟨?_, ?_⟩
    · rintro hoperation step (hstep | hstep)
      · exact hleft hoperation step hstep
      · exact hrightAll step hstep
    · rw [hsteps] at hleftTail ⊢
      intro step hstep
      rcases mem_append.mp hstep with hstep | hstep
      · exact hleftTail step hstep
      · exact hrightAll step hstep

variable {expr : SetExpr} {plan : LogicalPlan} {options : PhysicalPlanOptions} {id : ℕ}
  {state : PlannerState}

/-- The planner turns every set operation into a chain. -/
theorem Realises.operandChain (hplan : Realises uniqueId expr plan) (hapart : Apart uniqueId plan)
    (hset : plan.type = .setOperation) (hstash : options.stashColumnsInKeys = false)
    (hgen : generatePhysicalPlan plan options .empty = some (id, state)) :
    ∃ first rest, outputPlans uniqueId state = first :: rest ∧
    OperandChain uniqueId first rest := by
  obtain ⟨distinct, rest, hsteps, hplanned⟩ :=
    hplan.planned hapart PlannerState.fresh_empty hgen
  obtain ⟨head, tail, hplans, _, hhead, htail, _, huniform⟩ := hplanned.added
  have hempty : outputPlans uniqueId .empty = [] := rfl
  rw [hempty, append_nil] at hplans
  rw [hstash] at huniform
  have houtput : ∀ planned ∈ head :: tail, planned.outputKey.uniqueId = uniqueId := by
    intro planned hmem
    rw [← hplans] at hmem
    simpa using (mem_filter.mp hmem).2
  have hoperation : head.setOperation = .notSet := congrArg Prod.fst hhead
  have htailSteps := (expr.steps_ne_notSet .notSet false).2
  rw [hsteps, tail_cons, ← htail] at htailSteps
  refine ⟨head, tail, hplans, ?_, hoperation, ?_⟩
  · exact ⟨houtput head (by simp), Or.inl hoperation,
      huniform.stash head (by simp), huniform.head hset⟩
  · intro planned hmem
    exact ⟨houtput planned (by simp [hmem]), htailSteps planned.step (mem_map_of_mem hmem),
      huniform.stash planned (by simp [hmem]), huniform.tail planned hmem⟩

namespace IndexMirrorWitness

open SetPlanWitness

/-- `SELECT id FROM names EXCEPT ALL SELECT id FROM names WHERE id = '1'` -/
def exceptAll : LogicalPlan := .setOperation .exceptAll allNames (oneName "1")

theorem exceptAll_realises : Realises 1
    (.setOperation .exceptAll (.select false 0) (.select false 0)) exceptAll :=
  .setOperation (.select (.leaf allNames_select) rfl) (.select (.leaf (oneName_select "1")) rfl)

theorem exceptAll_plans : ∃ id state,
    generatePhysicalPlan exceptAll ⟨none, false⟩ .empty = some (id, state) := by
  have hsome : (generatePhysicalPlan exceptAll ⟨none, false⟩ .empty).isSome :=
    by decide
  obtain ⟨⟨id, state⟩, hgen⟩ := Option.isSome_iff_exists.mp hsome
  exact ⟨id, state, hgen⟩

/-- The index and the table after the two plans. -/
def result (rows0 rows1 : List (List ℕ)) : Option (ℕ × Multiset (List ℕ)) :=
  (generatePhysicalPlan exceptAll ⟨none, false⟩ .empty).map fun planned =>
    let cursor := runPlans ((outputPlans 1 planned.2).zip [rows0, rows1]) .empty
    (cursor.index.data [7], cursor.rows 1)

end IndexMirrorWitness

end Octo
