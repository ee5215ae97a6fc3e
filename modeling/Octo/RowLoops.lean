/-
The loops of the emitted code over the rows of an operand.  While rows are
added, the index mirrors the table; an EXCEPT keeps the ids in step but not the
counts, and an INTERSECT clears from the index the rows it finds.
-/
import Octo.TableIndex
import Mathlib.Tactic

namespace Octo

open GlobalTree Subscripts Multiset

variable {σ : Type*} [Subscripts σ] {n uniqueId : ℕ}

/-- The ids in the index are those of the table. -/
structure Tracks (n uniqueId : ℕ) (cursor : Cursor σ) : Prop where
  formed : Formed n uniqueId cursor
  indexed : ∀ v row, row.length = n → (cursor.Indexed row v ↔ cursor.Holds uniqueId v row)

/-- The index mirrors the table: it has the same ids, and counts at the rows
of the table only. -/
structure Mirrors (n uniqueId : ℕ) (cursor : Cursor σ) : Prop extends Tracks n uniqueId cursor where
  counted : ∀ row, row.length = n → (cursor.Counted row ↔ row ∈ cursor.rows uniqueId)

variable {cursor later : Cursor σ}

theorem Mirrors.added {columns : List σ} (hmirrors : Mirrors n uniqueId cursor)
    (hadded : Added n uniqueId columns cursor later) : Mirrors n uniqueId later := by
  refine ⟨⟨hadded.formed, ?_⟩, ?_⟩
  · intro v row hrow
    rw [hadded.indexed v row hrow, hadded.holds, hmirrors.indexed v row hrow]
  · intro row hrow
    rw [hadded.counted row hrow, hadded.rows, mem_cons, hmirrors.counted row hrow]

theorem Tracks.removed {columns : List σ} {v : σ} (hlength : columns.length = n)
    (htracks : Tracks n uniqueId cursor) (hindexed : cursor.Indexed columns v)
    (hremoved : Removed n uniqueId columns v cursor later) : Tracks n uniqueId later ∧
    later.rows uniqueId = (cursor.rows uniqueId).erase columns := by
  have hholds := (htracks.indexed v columns hlength).mp hindexed
  refine ⟨⟨hremoved.formed, ?_⟩, ?_⟩
  · intro w row hrow
    rw [hremoved.indexed w row hrow, hremoved.holds, htracks.indexed w row hrow]
    refine and_congr_right fun hrowHolds => not_congr ⟨And.left, ?_⟩
    rintro rfl
    exact ⟨rfl, hrowHolds.row_unique hholds⟩
  · rw [hremoved.rows hholds, erase_cons_head]

section Loops

variable {plan : PhysicalPlan} {rows : List (List σ)}

theorem rowPasses_of_delete (hoperation : plan.setOperation = .except ∨
      plan.setOperation = .intersect) (columns : List σ) (cursor : Cursor σ) :
    rowPasses plan columns cursor = true := by
  rcases hoperation with hoperation | hoperation <;>
    simp [rowPasses, hoperation]

/-- A plan that only adds rows. -/
structure Projects (uniqueId : ℕ) (plan : PhysicalPlan) : Prop where
  output : plan.outputKey.uniqueId = uniqueId
  operation : plan.setOperation = .notSet ∨ plan.setOperation = .union
  stash : plan.stashColumnsInKeys = false
  index : plan.maintainColumnwiseIndex = true

variable {cursor : Cursor σ}

theorem Projects.rowBody (hplan : Projects uniqueId plan) {columns : List σ}
    (hlength : columns.length = n) (hmirrors : Mirrors n uniqueId cursor) :
    Mirrors n uniqueId (rowBody plan cursor columns) ∧ (rowBody plan cursor columns).rows uniqueId =
        if plan.distinctValues = true ∧ columns ∈ cursor.rows uniqueId then
          cursor.rows uniqueId
        else columns ::ₘ cursor.rows uniqueId := by
  obtain ⟨rfl, hoperation, hstash, hindex⟩ := hplan
  have hpasses : rowPasses plan columns cursor = true ↔ ¬ (plan.distinctValues = true ∧
      columns ∈ cursor.rows plan.outputKey.uniqueId) := by
    rw [← hmirrors.counted columns hlength,
      ← hmirrors.formed.hasData_iff hlength, ← Global.data_ne_zero]
    rcases hoperation with hoperation | hoperation <;>
      cases hdistinct : plan.distinctValues <;>
        simp [rowPasses, hoperation, hdistinct]
  have hadded :=
    projectRow_added hlength hstash hindex hmirrors.formed
  unfold Octo.rowBody
  by_cases hskip : plan.distinctValues = true ∧ columns ∈ cursor.rows plan.outputKey.uniqueId
  · rw [if_neg (fun h => hpasses.mp h hskip), if_pos hskip]
    exact ⟨hmirrors, rfl⟩
  · have houtput : outputRow plan columns cursor = projectRow plan columns cursor := by
      rcases hoperation with hoperation | hoperation <;> simp [outputRow, hoperation]
    rw [if_pos (hpasses.mpr hskip), if_neg hskip, houtput]
    exact ⟨hmirrors.added hadded, hadded.rows⟩

/-- Without DISTINCT all rows are added. -/
theorem Projects.loop (hplan : Projects uniqueId plan) (hrows : ∀ row ∈ rows, row.length = n)
    (hmirrors : Mirrors n uniqueId cursor) :
    Mirrors n uniqueId (rows.foldl (Octo.rowBody plan) cursor) ∧ (plan.distinctValues = false →
    (rows.foldl (Octo.rowBody plan) cursor).rows uniqueId = cursor.rows uniqueId + rows) := by
  induction rows generalizing cursor with
  | nil => exact ⟨hmirrors, by simp⟩
  | cons columns rest ih =>
    obtain ⟨hnext, hadd⟩ := hplan.rowBody (hrows columns (by simp)) hmirrors
    obtain ⟨hmirrors', hsum⟩ :=
      ih (fun row hrow => hrows row (List.mem_cons_of_mem _ hrow)) hnext
    refine ⟨hmirrors', fun hdistinct => ?_⟩
    rw [List.foldl_cons, hsum hdistinct, hadd, if_neg (by simp [hdistinct]),
      ← cons_coe, add_cons, cons_add]

/-- With DISTINCT a row is added unless it is there. -/
theorem Projects.loop_distinct (hplan : Projects uniqueId plan)
    (hdistinct : plan.distinctValues = true) (hrows : ∀ row ∈ rows, row.length = n)
    (hmirrors : Mirrors n uniqueId cursor) (hnodup : (cursor.rows uniqueId).Nodup) :
    ((rows.foldl (Octo.rowBody plan) cursor).rows uniqueId).Nodup ∧
    ∀ row, row ∈ (rows.foldl (Octo.rowBody plan) cursor).rows uniqueId ↔
    row ∈ cursor.rows uniqueId ∨ row ∈ rows := by
  induction rows generalizing cursor with
  | nil => exact ⟨hnodup, by simp⟩
  | cons columns rest ih =>
    obtain ⟨hnext, hadd⟩ := hplan.rowBody (hrows columns (by simp)) hmirrors
    simp only [hdistinct, true_and] at hadd
    have hnextNodup : ((Octo.rowBody plan cursor columns).rows uniqueId).Nodup := by
      rw [hadd]
      split_ifs with hmem
      · exact hnodup
      · exact nodup_cons.mpr ⟨hmem, hnodup⟩
    have hnextMem : ∀ row, row ∈ (Octo.rowBody plan cursor columns).rows uniqueId ↔
        row ∈ cursor.rows uniqueId ∨ row = columns := by
      intro row
      rw [hadd]
      split_ifs with hmem
      · constructor
        · exact Or.inl
        · rintro (hrow | rfl)
          · exact hrow
          · exact hmem
      · rw [mem_cons, or_comm]
    obtain ⟨hlast, hmem⟩ :=
      ih (fun row hrow => hrows row (List.mem_cons_of_mem _ hrow)) hnext hnextNodup
    refine ⟨hlast, fun row => ?_⟩
    rw [List.foldl_cons, hmem, hnextMem, List.mem_cons, or_assoc]

/-- An EXCEPT takes out a copy for each row. -/
theorem except_loop (houtput : plan.outputKey.uniqueId = uniqueId)
    (hoperation : plan.setOperation = .except) (hrows : ∀ row ∈ rows, row.length = n)
    (htracks : Tracks n uniqueId cursor) :
    Tracks n uniqueId (rows.foldl (Octo.rowBody plan) cursor) ∧
    (rows.foldl (Octo.rowBody plan) cursor).rows uniqueId =
    cursor.rows uniqueId - (rows : Multiset (List σ)) ∧ ∀ row, row.length = n →
    ((rows.foldl (Octo.rowBody plan) cursor).Counted row ↔ cursor.Counted row) := by
  induction rows generalizing cursor with
  | nil => exact ⟨htracks, by simp, by simp⟩
  | cons columns rest ih =>
    have hlength := hrows columns (by simp)
    have hbody : Octo.rowBody plan cursor columns = exceptRow plan columns cursor := by
      rw [Octo.rowBody, if_pos (rowPasses_of_delete (Or.inl hoperation) _ _)]
      simp [outputRow, hoperation]
    have hstep : Tracks n uniqueId (exceptRow plan columns cursor) ∧
        (exceptRow plan columns cursor).rows uniqueId = (cursor.rows uniqueId).erase columns ∧
        ∀ row, row.length = n → ((exceptRow plan columns cursor).Counted row ↔
        cursor.Counted row) := by
      subst houtput
      rcases exceptRow_cases hlength htracks.formed with
        ⟨hnone, heq⟩ | ⟨v, hindexed, hremoved⟩
      · rw [heq]
        refine ⟨htracks, ?_, fun _ _ => Iff.rfl⟩
        rw [erase_of_notMem]
        intro hmem
        obtain ⟨v, hholds⟩ := Cursor.mem_rows.mp hmem
        exact hnone v ((htracks.indexed v columns hlength).mpr hholds)
      · obtain ⟨hlater, herase⟩ := htracks.removed hlength hindexed hremoved
        exact ⟨hlater, herase, hremoved.counted⟩
    obtain ⟨hlater, herase, hcounted⟩ := hstep
    obtain ⟨hlast, hsub, hcount⟩ :=
      ih (fun row hrow => hrows row (List.mem_cons_of_mem _ hrow)) hlater
    rw [List.foldl_cons, hbody]
    refine ⟨hlast, ?_, fun row hrow => (hcount row hrow).trans (hcounted row hrow)⟩
    rw [hsub, herase, ← cons_coe, sub_cons]

/-- The rows `found` are cleared from the index. -/
structure Leaves (n uniqueId : ℕ) (found : List (List σ)) (cursor later : Cursor σ) : Prop where
  formed : Formed n uniqueId later
  rows : later.rows uniqueId = cursor.rows uniqueId
  holds : ∀ v row, later.Holds uniqueId v row ↔ cursor.Holds uniqueId v row
  indexed : ∀ v row, row.length = n → (later.Indexed row v ↔ cursor.Indexed row v ∧ row ∉ found)
  counted : ∀ row, row.length = n → (later.Counted row ↔ cursor.Counted row ∧ row ∉ found)

theorem intersect_loop (houtput : plan.outputKey.uniqueId = uniqueId)
    (hoperation : plan.setOperation = .intersect) (hindex : plan.maintainColumnwiseIndex = true)
    (hrows : ∀ row ∈ rows, row.length = n) (hformed : Formed n uniqueId cursor) :
    Leaves n uniqueId rows cursor (rows.foldl (Octo.rowBody plan) cursor) := by
  induction rows generalizing cursor with
  | nil => exact ⟨hformed, rfl, by simp, by simp, by simp⟩
  | cons columns rest ih =>
    have hlength := hrows columns (by simp)
    have hbody : Octo.rowBody plan cursor columns = intersectRow plan columns cursor := by
      rw [Octo.rowBody, if_pos (rowPasses_of_delete (Or.inr hoperation) _ _)]
      simp [outputRow, hoperation]
    have hcleared : Cleared n uniqueId columns cursor (intersectRow plan columns cursor) := by
      subst houtput
      exact intersectRow_cleared hlength hindex hformed
    have hrest := ih (fun row hrow => hrows row (List.mem_cons_of_mem _ hrow)) hcleared.formed
    rw [List.foldl_cons, hbody]
    refine ⟨hrest.formed, hrest.rows.trans hcleared.rows,
      fun v row => (hrest.holds v row).trans (hcleared.holds v row), ?_, ?_⟩
    · intro v row hrow
      rw [hrest.indexed v row hrow, hcleared.indexed v row hrow, List.mem_cons, not_or, and_assoc]
    · intro row hrow
      rw [hrest.counted row hrow, hcleared.counted row hrow, List.mem_cons, not_or, and_assoc]

end Loops

section Copies

variable {cursor : Cursor σ} {row : List σ}

/-- A row has one id exactly if it has at most one copy. -/
theorem Formed.holds_unique_iff (hformed : Formed n uniqueId cursor) :
    (∀ v w, cursor.Holds uniqueId v row → cursor.Holds uniqueId w row → v = w) ↔
      (cursor.rows uniqueId).count row ≤ 1 := by
  by_cases hmem : row ∈ cursor.rows uniqueId
  · obtain ⟨v, hholds⟩ := Cursor.mem_rows.mp hmem
    have hremoved : Removed n uniqueId row v cursor
        { output := Function.update cursor.output uniqueId ((cursor.output uniqueId).kill [v])
          index := cursor.index.kill (row ++ [v]) } :=
      removed_of_kill (hformed.holds_ofNat hholds).1 hformed (Function.update_self _ _ _) rfl
    have hother : (∀ u w, cursor.Holds uniqueId u row → cursor.Holds uniqueId w row → u = w) ↔
        ∀ w, cursor.Holds uniqueId w row → w = v := by
      constructor
      · intro hunique w hw
        exact hunique w v hw hholds
      · intro hunique u w hu hw
        rw [hunique u hu, hunique w hw]
    have hcount := hremoved.rows hholds
    have hone : ∀ k : ℕ, k + 1 ≤ 1 ↔ k = 0 := by omega
    rw [hother, hcount, count_cons_self, hone, count_eq_zero, Cursor.mem_rows]
    constructor
    · rintro hunique ⟨w, hw⟩
      obtain ⟨hw, hne⟩ := (hremoved.holds w row).mp hw
      exact hne (hunique w hw)
    · intro hnone w hw
      by_contra hne
      exact hnone ⟨w, (hremoved.holds w row).mpr ⟨hw, hne⟩⟩
  · rw [count_eq_zero_of_notMem hmem]
    refine ⟨fun _ => Nat.zero_le 1, fun _ v _ hv _ => ?_⟩
    exact absurd (Cursor.mem_rows.mpr ⟨v, hv⟩) hmem

end Copies

end Octo
