/-
What the emitted code does to the table and the index of an output, row by
row.  In the index a row has a node that counts its copies, and below it one
node for the id of each copy.
-/
import Octo.EmittedPlan

namespace Octo

open GlobalTree Subscripts List Global
open Option hiding filter_filter

variable {σ : Type*} [Subscripts σ]

omit [Subscripts σ] in
theorem tableRow_row (v : σ) (columns : List σ) : tableRow ([v], .row columns) = some columns := rfl

omit [Subscripts σ] in
theorem tableRow_eq_some {node : List σ × Value σ} {row : List σ}
    (hrow : tableRow node = some row) : ∃ v, node = ([v], .row row) := by
  unfold tableRow at hrow
  split at hrow
  · rename_i v columns
    exact ⟨v, by rw [some.inj hrow]⟩
  · simp at hrow

namespace Cursor

/-- The table has `row` at `v`. -/
def Holds (cursor : Cursor σ) (uniqueId : ℕ) (v : σ) (row : List σ) : Prop :=
  (cursor.output uniqueId).get [v] = some (.row row)

/-- The index has `v` below `row`. -/
def Indexed (cursor : Cursor σ) (row : List σ) (v : σ) : Prop :=
  (cursor.index.get (row ++ [v])).isSome

/-- The index has a count at `row`. -/
def Counted (cursor : Cursor σ) (row : List σ) : Prop :=
  (cursor.index.get row).isSome

variable {cursor : Cursor σ} {uniqueId : ℕ}

/-- There is one row at `v`. -/
theorem Holds.row_unique {v : σ} {row other : List σ} (hrow : cursor.Holds uniqueId v row)
    (hother : cursor.Holds uniqueId v other) : row = other := by
  have heq := hrow.symm.trans hother
  simpa using heq

theorem mem_rows {row : List σ} :
    row ∈ cursor.rows uniqueId ↔ ∃ v, cursor.Holds uniqueId v row := by
  simp only [rows, Multiset.mem_coe, mem_filterMap, Holds, get_eq_some]
  constructor
  · rintro ⟨node, hnode, hrow⟩
    obtain ⟨v, rfl⟩ := tableRow_eq_some hrow
    exact ⟨v, hnode⟩
  · rintro ⟨v, hnode⟩
    exact ⟨_, hnode, rfl⟩

end Cursor

/-- The table has ids up to its counter, at rows of `n` columns; the index has
counts at such rows and ids below them. -/
structure Formed (n uniqueId : ℕ) (cursor : Cursor σ) : Prop where
  table : ∀ node ∈ (cursor.output uniqueId).nodes, node.1 = [] ∨
    ∃ id row, id ≤ cursor.rowCount uniqueId ∧ row.length = n ∧ node = ([ofNat id], .row row)
  index : ∀ node ∈ cursor.index.nodes, node.1.length = n ∨
    ∃ row id, row.length = n ∧ id ≤ cursor.rowCount uniqueId ∧
      node.1 = row ++ [ofNat id] ∧ cursor.Counted row

namespace Formed

variable {n uniqueId : ℕ} {cursor : Cursor σ}

variable {row : List σ}

section

variable (hformed : Formed n uniqueId cursor)
include hformed

theorem holds_ofNat {v : σ} (hholds : cursor.Holds uniqueId v row) :
    row.length = n ∧ ∃ id ≤ cursor.rowCount uniqueId, v = ofNat id := by
  rcases hformed.table _ (get_eq_some.mp hholds) with
    hroot | ⟨id, columns, hid, hlength, hnode⟩
  · simp at hroot
  · simp only [Prod.mk.injEq, List.cons.injEq, and_true, Value.row.injEq] at hnode
    rw [hnode.2]
    exact ⟨hlength, id, hid, hnode.1⟩

theorem indexed_ofNat {v : σ} (hrow : row.length = n) (hindexed : cursor.Indexed row v) :
    cursor.Counted row ∧ ∃ id ≤ cursor.rowCount uniqueId, v = ofNat id := by
  obtain ⟨value, hvalue⟩ := isSome_iff_exists.mp hindexed
  rcases hformed.index _ (get_eq_some.mp hvalue) with
    hlength | ⟨columns, id, hlength, hid, hpath, hcounted⟩
  · simp at hlength
    omega
  · obtain ⟨rfl, hv⟩ := append_inj hpath (by omega)
    exact ⟨hcounted, id, hid, by simpa using hv⟩

/-- A row has data in the index exactly if it has a count. -/
theorem hasData_iff (hrow : row.length = n) : cursor.index.HasData row ↔ cursor.Counted row := by
  constructor
  · rintro ⟨node, hnode, hpre⟩
    rcases hformed.index node hnode with
      hlength | ⟨columns, id, hlength, _, hpath, hcounted⟩
    · obtain rfl : row = node.1 := hpre.eq_of_length (by omega)
      exact isSome_iff_exists.mpr ⟨_, get_eq_some.mpr hnode⟩
    · rw [hpath] at hpre
      obtain rfl : row = columns :=
        (prefix_of_prefix_length_le hpre (prefix_append _ _) (by omega)).eq_of_length (by omega)
      exact hcounted
  · intro hcounted
    obtain ⟨value, hvalue⟩ := isSome_iff_exists.mp hcounted
    exact ⟨_, get_eq_some.mp hvalue, prefix_rfl⟩

theorem hasData_snoc_iff (hrow : row.length = n)
    (v : σ) : cursor.index.HasData (row ++ [v]) ↔ cursor.Indexed row v := by
  constructor
  · rintro ⟨node, hnode, hpre⟩
    have hle := hpre.length_le
    have hlength : node.1.length = (row ++ [v]).length := by
      rcases hformed.index node hnode with
        hlength | ⟨columns, id, hlength, _, hpath, _⟩
      · simp at hle
        omega
      · simp [hpath, hlength, hrow]
    have hpath : row ++ [v] = node.1 := hpre.eq_of_length hlength.symm
    exact isSome_iff_exists.mpr ⟨node.2, get_eq_some.mpr (by rw [hpath]; exact hnode)⟩
  · intro hindexed
    obtain ⟨value, hvalue⟩ := isSome_iff_exists.mp hindexed
    exact ⟨_, get_eq_some.mp hvalue, prefix_rfl⟩

/-- The next id is not in use. -/
theorem not_holds_succ (row : List σ) :
    ¬ cursor.Holds uniqueId (ofNat (cursor.rowCount uniqueId + 1)) row := by
  intro hholds
  obtain ⟨_, id, hid, heq⟩ := hformed.holds_ofNat hholds
  have := ofNat_injective heq
  omega

theorem get_succ : (cursor.output uniqueId).get [ofNat (cursor.rowCount uniqueId + 1)] = none := by
  cases hget : (cursor.output uniqueId).get [ofNat (cursor.rowCount uniqueId + 1)] with
  | none => rfl
  | some value =>
    rcases hformed.table _ (get_eq_some.mp hget) with
      hroot | ⟨id, row, hid, _, hnode⟩
    · simp at hroot
    · simp only [Prod.mk.injEq, List.cons.injEq, and_true] at hnode
      have := ofNat_injective hnode.1
      omega

end

end Formed

/-- What adding a row does. -/
structure Added (n uniqueId : ℕ) (columns : List σ) (cursor later : Cursor σ) : Prop where
  formed : Formed n uniqueId later
  rows : later.rows uniqueId = columns ::ₘ cursor.rows uniqueId
  holds : ∀ v row, later.Holds uniqueId v row ↔
    v = ofNat (cursor.rowCount uniqueId + 1) ∧ row = columns ∨ cursor.Holds uniqueId v row
  indexed : ∀ v row, row.length = n → (later.Indexed row v ↔
    v = ofNat (cursor.rowCount uniqueId + 1) ∧ row = columns ∨ cursor.Indexed row v)
  counted : ∀ row, row.length = n → (later.Counted row ↔ row = columns ∨ cursor.Counted row)

/-- The root of a table has no row. -/
theorem filterMap_set_root (table : Global σ (Value σ)) (value : Value σ) :
    (table.set [] value).nodes.filterMap tableRow = table.nodes.filterMap tableRow := by
  have hroot : ∀ node : List σ × Value σ, node.1 = [] → tableRow node = none := by
    rintro ⟨path, found⟩ rfl
    rfl
  have hnone : table.nodes.filter (fun node => node.1 < []) = [] := by
    simp
  rw [Global.set]
  simp only [hnone, nil_append]
  rw [filterMap_cons_none (hroot _ rfl), filterMap_filter]
  apply filterMap_congr
  intro node _
  cases hpath : node.1 with
  | nil => simp [hroot node hpath]
  | cons head tail => simp

variable {columns : List σ}

omit [Subscripts σ] in
theorem snoc_ne_of_length {row : List σ} (hlength : row.length = columns.length) (v : σ) :
    row ≠ columns ++ [v] := by
  intro heq
  have := congrArg List.length heq
  simp at this
  omega

variable {plan : PhysicalPlan}

variable {cursor : Cursor σ} {n : ℕ}

theorem projectRow_output (columns : List σ)
    (hstash : plan.stashColumnsInKeys = false) (hformed : Formed n plan.outputKey.uniqueId cursor) :
    (projectRow plan columns cursor).output plan.outputKey.uniqueId =
    ((cursor.output plan.outputKey.uniqueId).set []
    (.number (cursor.rowCount plan.outputKey.uniqueId + 1))).set
    [ofNat (cursor.rowCount plan.outputKey.uniqueId + 1)] (.row columns) := by
  have hcount : Value.asNumber ((increment (cursor.output plan.outputKey.uniqueId) []).get []) =
      cursor.rowCount plan.outputKey.uniqueId + 1 := by
    rw [increment, get_set_self]
    rfl
  have hnone : (increment (cursor.output plan.outputKey.uniqueId) []).get
      [ofNat (cursor.rowCount plan.outputKey.uniqueId + 1)] = none := by
    rw [increment, get_set_ne _ _ (by simp), hformed.get_succ]
  simp only [projectRow, hstash, hcount, Bool.false_eq_true, ↓reduceIte, hnone,
    Value.append, Function.update_self]
  rfl

theorem projectRow_index (columns : List σ) (cursor : Cursor σ)
    (hindex : plan.maintainColumnwiseIndex = true) : (projectRow plan columns cursor).index =
    increment (cursor.index.set (columns ++
    [ofNat (cursor.rowCount plan.outputKey.uniqueId + 1)]) (.row []))
          columns := by
  simp only [projectRow, hindex, ↓reduceIte, increment, get_set_self]
  rfl

theorem projectRow_added (hlength : columns.length = n)
    (hstash : plan.stashColumnsInKeys = false) (hindex : plan.maintainColumnwiseIndex = true)
    (hformed : Formed n plan.outputKey.uniqueId cursor) :
    Added n plan.outputKey.uniqueId columns cursor (projectRow plan columns cursor) := by
  have houtput := projectRow_output columns hstash hformed
  have hindexed := projectRow_index columns cursor hindex
  revert houtput hindexed
  generalize projectRow plan columns cursor = later
  generalize hid : cursor.rowCount plan.outputKey.uniqueId + 1 = id
  intro houtput hindexed
  have hnone : ((cursor.output plan.outputKey.uniqueId).set []
      (.number id)).get [ofNat id] = none := by
    rw [get_set_ne _ _ (by simp), ← hid, hformed.get_succ]
  have hcount : later.rowCount plan.outputKey.uniqueId = id := by
    rw [Cursor.rowCount, houtput, get_set_ne _ _ (by simp), get_set_self]
    rfl
  have hcounted : ∀ row : List σ, row.length = n →
      (later.Counted row ↔ row = columns ∨ cursor.Counted row) := by
    intro row hrow
    have hne := snoc_ne_of_length (hrow.trans hlength.symm) (ofNat id)
    rw [Cursor.Counted, hindexed, increment]
    by_cases heq : row = columns
    · simp [heq, get_set_self]
    · simp [heq, get_set_ne _ _ heq, get_set_ne _ _ hne, Cursor.Counted]
  refine ⟨⟨?_, ?_⟩, ?_, ?_, ?_, hcounted⟩
  · intro node hnode
    rw [houtput, Global.mem_set, Global.mem_set] at hnode
    rcases hnode with rfl | ⟨rfl | ⟨hnode, _⟩, _⟩
    · exact .inr ⟨id, columns, hcount.ge, hlength, rfl⟩
    · exact .inl rfl
    · rcases hformed.table node hnode with hroot | ⟨old, row, hold, hrow, hnode⟩
      · exact .inl hroot
      · exact .inr ⟨old, row, by omega, hrow, hnode⟩
  · intro node hnode
    rw [hindexed, increment, Global.mem_set, Global.mem_set] at hnode
    rcases hnode with rfl | ⟨rfl | ⟨hnode, _⟩, _⟩
    · exact .inl hlength
    · exact .inr ⟨columns, id, hlength, hcount.ge, rfl,
        (hcounted columns hlength).mpr (.inl rfl)⟩
    · rcases hformed.index node hnode with
        hrow | ⟨row, old, hrow, hold, hpath, hold'⟩
      · exact .inl hrow
      · exact .inr ⟨row, old, hrow, by omega, hpath, (hcounted row hrow).mpr (.inr hold')⟩
  · have hperm := (set_perm (.row columns) hnone).filterMap tableRow
    rw [filterMap_cons_some (tableRow_row _ columns), filterMap_set_root] at hperm
    rw [Cursor.rows, houtput, Multiset.coe_eq_coe.mpr hperm]
    rfl
  · intro v row
    rw [hid, Cursor.Holds, houtput]
    by_cases hv : v = ofNat id
    · subst hv
      have hold := hid ▸ hformed.not_holds_succ row
      rw [get_set_self]
      simp only [some.injEq, Value.row.injEq, true_and, hold, or_false]
      exact eq_comm
    · rw [get_set_ne _ _ (by simpa using hv), get_set_ne _ _ (by simp)]
      simp [hv, Cursor.Holds]
  · intro v row hrow
    have hne : row ++ [v] ≠ columns := fun heq =>
      snoc_ne_of_length (hlength.trans hrow.symm) v heq.symm
    rw [hid, Cursor.Indexed, hindexed, increment, get_set_ne _ _ hne]
    by_cases heq : row ++ [v] = columns ++ [ofNat id]
    · obtain ⟨rfl, hv⟩ := append_inj heq (hrow.trans hlength.symm)
      simp only [List.cons.injEq, and_true] at hv
      simp [hv, get_set_self]
    · rw [get_set_ne _ _ heq]
      have : ¬ (v = ofNat id ∧ row = columns) := by
        rintro ⟨rfl, rfl⟩
        exact heq rfl
      simp [this, Cursor.Indexed]

/-- What taking out the copy of a row at `v` does. -/
structure Removed (n uniqueId : ℕ) (columns : List σ) (v : σ) (cursor later : Cursor σ) : Prop where
  formed : Formed n uniqueId later
  rows : cursor.Holds uniqueId v columns → cursor.rows uniqueId = columns ::ₘ later.rows uniqueId
  holds : ∀ w row, later.Holds uniqueId w row ↔ cursor.Holds uniqueId w row ∧ w ≠ v
  indexed : ∀ w row, row.length = n → (later.Indexed row w ↔
    cursor.Indexed row w ∧ ¬ (w = v ∧ row = columns))
  counted : ∀ row, row.length = n → (later.Counted row ↔ cursor.Counted row)

theorem removed_of_kill {n uniqueId : ℕ} {v : σ} {cursor later : Cursor σ}
    (hlength : columns.length = n) (hformed : Formed n uniqueId cursor)
    (houtput : later.output uniqueId = (cursor.output uniqueId).kill [v])
    (hindex : later.index = cursor.index.kill (columns ++ [v])) :
    Removed n uniqueId columns v cursor later := by
  have hcount : later.rowCount uniqueId = cursor.rowCount uniqueId := by
    rw [Cursor.rowCount, houtput, get_kill, if_neg (by simp)]
    rfl
  have hcounted : ∀ row : List σ, row.length = n → (later.Counted row ↔ cursor.Counted row) := by
    intro row hrow
    rw [Cursor.Counted, hindex, get_kill, if_neg]
    · rfl
    · intro hpre
      have := hpre.length_le
      simp at this
      omega
  refine ⟨⟨?_, ?_⟩, ?_, ?_, ?_, hcounted⟩
  · intro node hnode
    rw [houtput, mem_kill] at hnode
    rw [hcount]
    exact hformed.table node hnode.1
  · intro node hnode
    rw [hindex, mem_kill] at hnode
    rcases hformed.index node hnode.1 with
      hrow | ⟨row, id, hrow, hid, hpath, hold⟩
    · exact .inl hrow
    · exact .inr ⟨row, id, hrow, by omega, hpath, (hcounted row hrow).mpr hold⟩
  · intro hholds
    have honly : ∀ node ∈ (cursor.output uniqueId).nodes, [v] <+: node.1 → node.1 = [v] := by
      intro node hnode hpre
      rcases hformed.table node hnode with hroot | ⟨id, row, _, _, rfl⟩
      · simp [hroot] at hpre
      · exact (hpre.eq_of_length rfl).symm
    have hperm := (kill_perm (get_eq_some.mp hholds) honly).filterMap tableRow
    rw [Cursor.rows, Multiset.coe_eq_coe.mpr hperm, Cursor.rows, houtput]
    rfl
  · intro w row
    rw [Cursor.Holds, houtput, get_kill]
    by_cases hw : w = v
    · simp [hw]
    · rw [if_neg (by simpa [cons_prefix_cons, eq_comm] using hw)]
      simp [hw, Cursor.Holds]
  · intro w row hrow
    rw [Cursor.Indexed, hindex, get_kill]
    by_cases heq : w = v ∧ row = columns
    · obtain ⟨rfl, rfl⟩ := heq
      simp
    · rw [if_neg]
      · simp [heq, Cursor.Indexed]
      · intro hpre
        have hpath := hpre.eq_of_length (by simp [hrow, hlength])
        obtain ⟨hcolumns, hv⟩ :=
          append_inj hpath (hlength.trans hrow.symm)
        simp only [List.cons.injEq, and_true] at hv
        exact heq ⟨hv.symm, hcolumns.symm⟩

/-- An EXCEPT takes out one copy, if the index has one. -/
theorem exceptRow_cases
    (hlength : columns.length = n) (hformed : Formed n plan.outputKey.uniqueId cursor) :
    (∀ v, ¬ cursor.Indexed columns v) ∧ exceptRow plan columns cursor = cursor ∨
    ∃ v, cursor.Indexed columns v ∧ Removed n plan.outputKey.uniqueId columns v cursor
    (exceptRow plan columns cursor) := by
  unfold exceptRow
  cases horder : cursor.index.order columns none with
  | none =>
    refine .inl ⟨fun v => ?_, rfl⟩
    rw [← hformed.hasData_snoc_iff hlength v]
    exact order_none.mp horder v
  | some v =>
    refine .inr ⟨v, ?_, removed_of_kill hlength hformed ?_ rfl⟩
    · exact (hformed.hasData_snoc_iff hlength v).mp (order_some horder)
    · exact Function.update_self _ _ _

/-- What clearing a row from the index does. -/
structure Cleared (n uniqueId : ℕ) (columns : List σ) (cursor later : Cursor σ) : Prop where
  formed : Formed n uniqueId later
  rows : later.rows uniqueId = cursor.rows uniqueId
  holds : ∀ v row, later.Holds uniqueId v row ↔ cursor.Holds uniqueId v row
  indexed : ∀ v row, row.length = n → (later.Indexed row v ↔ cursor.Indexed row v ∧ row ≠ columns)
  counted : ∀ row, row.length = n → (later.Counted row ↔ cursor.Counted row ∧ row ≠ columns)

theorem intersectRow_cleared
    (hlength : columns.length = n) (hindex : plan.maintainColumnwiseIndex = true)
    (hformed : Formed n plan.outputKey.uniqueId cursor) :
    Cleared n plan.outputKey.uniqueId columns cursor (intersectRow plan columns cursor) := by
  have houtput : (intersectRow plan columns cursor).output plan.outputKey.uniqueId =
      increment (cursor.output plan.outputKey.uniqueId) [] :=
    Function.update_self _ _ _
  have hkill : (intersectRow plan columns cursor).index = cursor.index.kill columns := by
    simp [intersectRow, hindex]
  revert houtput hkill
  generalize intersectRow plan columns cursor = later
  intro houtput hkill
  have hcount : later.rowCount plan.outputKey.uniqueId =
      cursor.rowCount plan.outputKey.uniqueId + 1 := by
    rw [Cursor.rowCount, houtput, increment, get_set_self]
    rfl
  have hget : ∀ path : List σ, path ≠ [] → (later.output plan.outputKey.uniqueId).get path =
      (cursor.output plan.outputKey.uniqueId).get path := by
    intro path hpath
    rw [houtput, increment, get_set_ne _ _ hpath]
  have hpre : ∀ {row : List σ}, row.length = n →
      ∀ tail, columns <+: row ++ tail ↔ row = columns := by
    intro row hrow tail
    constructor
    · intro hpre
      exact ((prefix_of_prefix_length_le hpre (prefix_append _ _)
        (by omega)).eq_of_length (by omega)).symm
    · rintro rfl
      exact prefix_append _ _
  have hcounted : ∀ row : List σ, row.length = n →
      (later.Counted row ↔ cursor.Counted row ∧ row ≠ columns) := by
    intro row hrow
    have hiff := hpre hrow []
    rw [append_nil] at hiff
    rw [Cursor.Counted, hkill, get_kill]
    by_cases heq : row = columns
    · simp [heq]
    · rw [if_neg (fun h => heq (hiff.mp h))]
      simp [heq, Cursor.Counted]
  refine ⟨⟨?_, ?_⟩, ?_, ?_, ?_, hcounted⟩
  · intro node hnode
    rw [houtput, increment, Global.mem_set] at hnode
    rcases hnode with rfl | ⟨hnode, _⟩
    · exact .inl rfl
    · rcases hformed.table node hnode with hroot | ⟨id, row, hid, hrow, hnode⟩
      · exact .inl hroot
      · exact .inr ⟨id, row, by omega, hrow, hnode⟩
  · intro node hnode
    rw [hkill, mem_kill] at hnode
    rcases hformed.index node hnode.1 with
      hrow | ⟨row, id, hrow, hid, hpath, hold⟩
    · exact .inl hrow
    · refine .inr ⟨row, id, hrow, by omega, hpath, (hcounted row hrow).mpr ⟨hold, ?_⟩⟩
      rintro rfl
      exact hnode.2 (hpath ▸ prefix_append _ _)
  · rw [Cursor.rows, houtput, increment, filterMap_set_root]
    rfl
  · intro v row
    rw [Cursor.Holds, hget _ (by simp)]
    rfl
  · intro v row hrow
    have hiff := hpre hrow [v]
    rw [Cursor.Indexed, hkill, get_kill]
    by_cases heq : row = columns
    · rw [if_pos (hiff.mpr heq)]
      simp [heq]
    · rw [if_neg (fun h => heq (hiff.mp h))]
      simp [heq, Cursor.Indexed]

def lastPieces (paths : List (List σ)) : List σ := paths.filterMap lastPiece

/-- The subscripts at which the rows left in the index are deleted. -/
def remaining (cursor : Cursor σ) : List σ :=
  lastPieces (cursor.index.walkTwo cursor.index.nodes.length [])

/-- What deleting the rows at some subscripts does. -/
structure Deleted (n uniqueId : ℕ) (gone : List σ) (cursor later : Cursor σ) : Prop where
  formed : Formed n uniqueId later
  rows : later.rows uniqueId = (((cursor.output uniqueId).nodes.filter fun node =>
      ∀ v ∈ gone, ¬ [v] <+: node.1).filterMap tableRow : List (List σ))
  holds : ∀ v row, later.Holds uniqueId v row ↔ cursor.Holds uniqueId v row ∧ v ∉ gone
  index : later.index = cursor.index

/-- The loop over the nodes that are met. -/
theorem foldl_kill_nodes (uniqueId : ℕ) (paths : List (List σ)) (cursor : Cursor σ) :
    ((paths.foldl (fun cursor path =>
        match lastPiece path with
        | none => cursor
        | some v => cursor.setOutput uniqueId ((cursor.output uniqueId).kill [v])) cursor).output
        uniqueId).nodes =
      ((cursor.output uniqueId).nodes.filter fun node =>
        ∀ v ∈ lastPieces paths, ¬ [v] <+: node.1) ∧
    (paths.foldl (fun cursor path =>
        match lastPiece path with
        | none => cursor
        | some v => cursor.setOutput uniqueId ((cursor.output uniqueId).kill [v])) cursor).index =
      cursor.index := by
  induction paths generalizing cursor with
  | nil => simp [lastPieces]
  | cons path paths ih =>
    rw [foldl_cons, lastPieces]
    cases hpiece : lastPiece path with
    | none =>
      rw [filterMap_cons_none hpiece]
      exact ih cursor
    | some v =>
      rw [filterMap_cons_some hpiece]
      obtain ⟨hnodes, hindex⟩ := ih (cursor.setOutput uniqueId ((cursor.output uniqueId).kill [v]))
      refine ⟨?_, hindex⟩
      rw [hnodes, Cursor.setOutput_output, Global.kill, filter_filter]
      apply filter_congr
      intro node _
      rw [Bool.eq_iff_iff]
      simp only [Bool.and_eq_true, decide_eq_true_eq, forall_mem_cons]
      exact and_comm

theorem deleteRemaining_deleted (hformed : Formed n plan.outputKey.uniqueId cursor) :
    Deleted n plan.outputKey.uniqueId (remaining cursor) cursor (deleteRemaining plan cursor) := by
  have hloop := foldl_kill_nodes plan.outputKey.uniqueId
    (cursor.index.walkTwo cursor.index.nodes.length []) cursor
  change ((deleteRemaining plan cursor).output _).nodes =
    List.filter (fun node : List σ × Value σ => decide
    (∀ v ∈ remaining cursor, ¬ [v] <+: node.1)) _ ∧ (deleteRemaining plan cursor).index = _ at hloop
  obtain ⟨hnodes, hindex⟩ := hloop
  revert hnodes hindex
  generalize deleteRemaining plan cursor = later
  intro hnodes hindex
  have hmem : ∀ node : List σ × Value σ, node ∈ (later.output plan.outputKey.uniqueId).nodes ↔
      node ∈ (cursor.output plan.outputKey.uniqueId).nodes ∧
      ∀ v ∈ remaining cursor, ¬ [v] <+: node.1 := by
    intro node
    rw [hnodes, mem_filter, decide_eq_true_eq]
  have hcount : later.rowCount plan.outputKey.uniqueId =
      cursor.rowCount plan.outputKey.uniqueId := by
    have hget : (later.output plan.outputKey.uniqueId).get [] =
        (cursor.output plan.outputKey.uniqueId).get [] := by
      apply Option.ext
      intro value
      rw [get_eq_some, get_eq_some, hmem]
      simp
    rw [Cursor.rowCount, hget]
    rfl
  refine ⟨⟨?_, ?_⟩, ?_, ?_, hindex⟩
  · intro node hnode
    rw [hcount]
    exact hformed.table node ((hmem node).mp hnode).1
  · intro node hnode
    rw [hindex] at hnode
    simpa [hcount, Cursor.Counted, hindex] using hformed.index node hnode
  · rw [Cursor.rows, hnodes]
  · intro v row
    rw [Cursor.Holds, get_eq_some, hmem, ← get_eq_some]
    refine and_congr_right fun _ => ?_
    simp only [cons_prefix_cons, nil_prefix, and_true]
    exact ⟨fun h hmem => h v hmem rfl, fun h w hw heq => h (heq ▸ hw)⟩

end Octo
