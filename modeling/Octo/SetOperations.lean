/-
The set operations as the emitted code performs them on two operands.
-/
import Octo.SetExpression
import Octo.IntersectWalk

namespace Octo

open GlobalTree Subscripts RowBag Multiset

variable {σ : Type*} [Subscripts σ] {n uniqueId : ℕ}

/-- A plan for an operand of a set operation, before the planner records the
operation in it. -/
structure IsOperand (uniqueId : ℕ) (plan : PhysicalPlan) : Prop where
  output : plan.outputKey.uniqueId = uniqueId
  operation : plan.setOperation = .notSet
  unordered : plan.orderBy = .null
  stash : plan.stashColumnsInKeys = false

section Operands

variable {plan : PhysicalPlan} {rows : List (List σ)} {cursor : Cursor σ}

theorem mirrors_of_nodes_nil (htable : (cursor.output uniqueId).nodes = [])
    (hindex : cursor.index.nodes = []) : Mirrors n uniqueId cursor ∧ cursor.rows uniqueId = 0 := by
  have hnone : ∀ path, cursor.index.get path = none := by
    simp [Global.get, hindex]
  have hnoRow : ∀ path, (cursor.output uniqueId).get path = none := by
    simp [Global.get, htable]
  have hrows : cursor.rows uniqueId = 0 := by
    simp [Cursor.rows, htable]
  refine ⟨⟨⟨⟨by simp [htable], by simp [hindex]⟩, ?_⟩, ?_⟩, hrows⟩
  · intro v row _
    simp [Cursor.Indexed, hnone, Cursor.Holds, hnoRow]
  · intro row _
    simp [Cursor.Counted, hnone, hrows]

theorem IsOperand.projects (hplan : IsOperand uniqueId plan) (option : SetOption) :
    Projects uniqueId (keepIndex option plan) :=
  ⟨hplan.output, Or.inl hplan.operation, hplan.stash, rfl⟩

theorem runPlan_of_ne_intersect (hoperation : plan.setOperation ≠ .intersect) (rows : List (List σ))
    (cursor : Cursor σ) : runPlan plan rows cursor =
    rows.foldl (rowBody plan) (startPlan plan cursor) := by
  rw [runPlan, if_neg hoperation]

theorem startPlan_of_ne_notSet (hoperation : plan.setOperation ≠ .notSet)
    (cursor : Cursor σ) : startPlan plan cursor = cursor := by
  rw [startPlan, if_neg hoperation]

/-- The first plan of an output. -/
theorem Projects.first (hplan : Projects uniqueId plan) (hoperation : plan.setOperation = .notSet)
    (hrows : ∀ row ∈ rows, row.length = n) (hindex : cursor.index.nodes = []) :
    Mirrors n uniqueId (runPlan plan rows cursor) ∧ (runPlan plan rows cursor).rows uniqueId =
    capIf plan.distinctValues (rows : Multiset (List σ)) := by
  obtain rfl := hplan.output
  obtain ⟨hstart, hzero⟩ := @mirrors_of_nodes_nil _ _ n plan.outputKey.uniqueId
    (startPlan plan cursor) (by simp [startPlan, hoperation, Global.kill])
    (by simpa [startPlan, hoperation] using hindex)
  rw [runPlan_of_ne_intersect (by rw [hoperation]; decide)]
  obtain ⟨hmirrors, hsum⟩ := hplan.loop hrows hstart
  refine ⟨hmirrors, ?_⟩
  cases hdistinct : plan.distinctValues with
  | false =>
    rw [hsum hdistinct, hzero, zero_add]
    rfl
  | true =>
    obtain ⟨hnodup, hmem⟩ := hplan.loop_distinct hdistinct hrows hstart
      (by rw [hzero]; exact nodup_zero)
    rw [capIf_true_multiset]
    refine (Multiset.Nodup.ext hnodup (nodup_dedup _)).mpr ?_
    intro row
    rw [hmem, hzero]
    simp

theorem IsOperand.first (hplan : IsOperand uniqueId plan) (option : SetOption)
    (hrows : ∀ row ∈ rows, row.length = n) (hindex : cursor.index.nodes = []) :
    Mirrors n uniqueId (runPlan (keepIndex option plan) rows cursor) ∧
      (runPlan (keepIndex option plan) rows cursor).rows uniqueId =
        capIf (plan.distinctValues || option.isDistinct) (rows : Multiset (List σ)) :=
  (hplan.projects option).first hplan.operation hrows hindex

variable {option : SetOption}

theorem IsOperand.union_second (hplan : IsOperand uniqueId plan)
    (hdistinct : plan.distinctValues = true → option.isDistinct = true)
    (hoption : option.setOperation = .union) (hrows : ∀ row ∈ rows, row.length = n)
    (hmirrors : Mirrors n uniqueId cursor)
    (hnodup : option.isDistinct = true → (cursor.rows uniqueId).Nodup) :
    (runPlan (secondOperand option plan) rows cursor).rows uniqueId = capIf option.isDistinct
    (cursor.rows uniqueId + (rows : Multiset (List σ))) := by
  have hoperation : (secondOperand option plan).setOperation = .union := hoption
  have hprojects : Projects uniqueId (secondOperand option plan) :=
    ⟨hplan.output, Or.inr hoption, hplan.stash, rfl⟩
  have hsecond : (secondOperand option plan).distinctValues = option.isDistinct :=
    Bool.or_eq_right_iff_imp.mpr hdistinct
  rw [runPlan_of_ne_intersect (by rw [hoperation]; decide),
    startPlan_of_ne_notSet (by rw [hoperation]; decide)]
  cases hcase : option.isDistinct with
  | false =>
    exact (hprojects.loop hrows hmirrors).2 (hsecond.trans hcase)
  | true =>
    obtain ⟨hlast, hmem⟩ := hprojects.loop_distinct
      (hsecond.trans hcase) hrows hmirrors (hnodup hcase)
    rw [capIf_true_multiset]
    refine (Multiset.Nodup.ext hlast (nodup_dedup _)).mpr ?_
    intro row
    rw [hmem]
    simp

theorem except_second (houtput : plan.outputKey.uniqueId = uniqueId)
    (hoption : option.setOperation = .except) (hrows : ∀ row ∈ rows, row.length = n)
    (hmirrors : Mirrors n uniqueId cursor) :
    (runPlan (secondOperand option plan) rows cursor).rows uniqueId =
    cursor.rows uniqueId - (rows : Multiset (List σ)) := by
  have hoperation : (secondOperand option plan).setOperation = .except := hoption
  rw [runPlan_of_ne_intersect (by rw [hoperation]; decide),
    startPlan_of_ne_notSet (by rw [hoperation]; decide)]
  subst houtput
  have hloop := except_loop rfl hoperation hrows hmirrors.toTracks
  exact hloop.2.1

/-- An INTERSECT keeps the right rows if those it deletes have one copy each,
and not otherwise. -/
theorem intersect_second (hn : 0 < n) (houtput : plan.outputKey.uniqueId = uniqueId)
    (hoption : option.setOperation = .intersect) (hrows : ∀ row ∈ rows, row.length = n)
    (hmirrors : Mirrors n uniqueId cursor) :
    ((∀ row, row ∉ rows → (cursor.rows uniqueId).count row ≤ 1) →
    (runPlan (secondOperand option plan) rows cursor).rows uniqueId =
    (cursor.rows uniqueId).filter (· ∈ rows)) ∧
    ((∀ row ∈ (runPlan (secondOperand option plan) rows cursor).rows uniqueId, row ∈ rows) →
    ∀ row, row ∉ rows → (cursor.rows uniqueId).count row ≤ 1) := by
  have hoperation : (secondOperand option plan).setOperation = .intersect :=
    hoption
  rw [runPlan, startPlan_of_ne_notSet (by rw [hoperation]; decide), if_pos hoperation]
  subst houtput
  have hleaves := intersect_loop rfl hoperation rfl hrows hmirrors.formed
  have hdeleted := deleteRemaining_deleted hleaves.formed
  exact ⟨fun hcopies => hleaves.deleted_rows hn hmirrors hcopies hdeleted,
    hleaves.count_le_one hn hmirrors hdeleted⟩

end Operands

section Bags

variable (first : Multiset (List σ))

/-- Without ALL it does not matter how often the operands have a row. -/
theorem meaning_capIf {option : SetOption} (hoption : option.isDistinct = true)
    (distinct0 distinct1 : Bool) (second : Multiset (List σ)) :
    option.meaning (capIf distinct0 first) (capIf distinct1 second) =
      option.meaning first second := by
  refine Multiset.ext.mpr fun row => ?_
  have hcount := count_isBagHom row
  cases option with
  | union | except | intersect =>
    simp only [SetOption.meaning, hcount.map_distinct, hcount.map_add, hcount.map_sub,
      hcount.map_inter, hcount.map_capIf, capIf_nat, add_nat, sub_nat, inter_nat, distinct_nat]
    split_ifs <;> omega
  | unionAll | exceptAll | intersectAll => cases hoption

theorem dedup_add_dedup (second : Multiset (List σ)) :
    (first.dedup + second).dedup = (first + second).dedup := by
  refine (Multiset.Nodup.ext (nodup_dedup _) (nodup_dedup _)).mpr fun row => ?_
  simp

variable (second : List (List σ))

theorem filter_mem_dedup :
    first.dedup.filter (· ∈ second) = (first ∩ (second : Multiset (List σ))).dedup := by
  refine (Multiset.Nodup.ext ((nodup_dedup _).filter _) (nodup_dedup _)).mpr fun row => ?_
  simp

/-- The rows of `first` that are in `second` are the intersection exactly if
none of them has too many copies. -/
theorem filter_mem_eq_inter_iff :
    first.filter (· ∈ second) = first ∩ (second : Multiset (List σ)) ↔ ∀ row ∈ second,
        first.count row ≤ (second : Multiset (List σ)).count row := by
  rw [Multiset.ext]
  refine forall_congr' fun row => ?_
  rw [count_filter, count_inter]
  by_cases hmem : row ∈ second
  · rw [if_pos hmem, left_eq_inf, imp_iff_right hmem]
  · simp [hmem]

theorem count_le_max_iff :
    (∀ row, first.count row ≤ max 1 ((second : Multiset (List σ)).count row)) ↔
      (∀ row, row ∉ second → first.count row ≤ 1) ∧ ∀ row ∈ second,
          first.count row ≤ (second : Multiset (List σ)).count row := by
  rw [← forall_and]
  refine forall_congr' fun row => ?_
  by_cases hmem : row ∈ second
  · have hpos : 0 < (second : Multiset (List σ)).count row :=
      count_pos.mpr hmem
    simp only [hmem, not_true, false_imp_iff, true_imp_iff, true_and]
    omega
  · simp [hmem]

end Bags

namespace SetOperationsWitness

def outputKey : SqlKey where
  keyColumn := none
  keyNum := 0
  uniqueId := 1
  value := none
  type := .advance
  isCrossReferenceKey := false
  crossReferenceOutputKey := none

def operand (id : ℕ) : PhysicalPlan :=
  newPlan id ⟨none, false⟩ outputKey .null

theorem operand_isOperand (id : ℕ) : IsOperand 1 (operand id) :=
  ⟨rfl, rfl, rfl, rfl⟩

end SetOperationsWitness

end Octo
