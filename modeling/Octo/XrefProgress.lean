/-
What a build of a cross reference has done at each of its steps: the rows that
it has passed are tracked by the cross reference and its trigger, and the counts
lag behind by the row that it is about to count.
-/
import Mathlib.Order.Nat
import Octo.XrefBuild

namespace Octo

open GlobalTree List Option

namespace XrefBuild

variable {σ : Type*} [LinearOrder σ] [OrderBot σ]

def Scan.Covers (scan : Scan σ) (keys : List σ) : Prop :=
  scan.Passed keys ∨ keys ∈ scan.uncounted?

/-- The part of the column that the cross reference is to hold. -/
noncomputable def covered (table : Global σ σ) (scan : Scan σ) (keys : List σ) : Option σ :=
  open Classical in if scan.Covers keys then column table keys else none

/-- By how much the counts lag behind the entries. -/
def lag (table : Global σ σ) (scan : Scan σ) (path : List σ) : ℤ :=
  match scan with
  | .total row =>
    if path <+: (table.get row).getD ⊥ :: row then 1 else 0
  | .reread row => if path = [(table.get row).getD ⊥] then 1 else 0
  | .count row _ => if path = [(table.get row).getD ⊥] then 1 else 0
  | _ => 0

/-- What is known about the position or the row of the plan. -/
def Scan.Shape (n : ℕ) (table : Global σ σ) : Scan σ → Prop
  | order position => ∃ outer last, position = outer ++ [last] ∧ outer.length < n
  | read row => row.length = n
  | entry row value => row.length = n ∧ column table row = some value
  | total row => row.length = n ∧ ∃ value, column table row = some value
  | reread row => row.length = n ∧ ∃ value, column table row = some value
  | count row value => row.length = n ∧ column table row = some value
  | _ => True

/-- The cross reference tracks the rows that the plan has dealt with. -/
structure Progress (n : ℕ) (state : State σ) : Prop where
  triggered : state.triggered = true
  shape : state.scan.Shape n state.table
  ahead : ∀ keys, keys.length = n → column state.table keys ≠ none →
    ¬state.scan.Covers keys → ⊥ ∉ keys
  tracks : XrefTracks n (lag state.table state.scan) (covered state.table state.scan) state.xref

section Build

variable {n : ℕ} {table : Global σ σ} {xref : Global σ XrefValue}
  {scan : Scan σ} {keys row : List σ} {value : σ}

theorem column_eq_some_iff : column table keys = some value ↔
    table.get keys = some value ∧ value ≠ ⊥ := by
  rw [column, filter_eq_some_iff]
  simp

theorem getD_of_column (hcolumn : column table keys = some value) :
    (table.get keys).getD ⊥ = value := by
  rw [(column_eq_some_iff.mp hcolumn).1]
  rfl

theorem covered_of_covers (hcovers : scan.Covers keys) :
    covered table scan keys = column table keys := by
  rw [covered, if_pos hcovers]

theorem covered_of_not_covers (hcovers : ¬scan.Covers keys) : covered table scan keys = none := by
  rw [covered, if_neg hcovers]

theorem covered_of_column_eq {table' : Global σ σ}
    (hcolumn : column table keys = column table' keys) :
    covered table scan keys = covered table' scan keys := by
  rw [covered, covered, hcolumn]

theorem covered_congr {scan' : Scan σ} (hcovers : column table keys ≠ none →
      (scan.Covers keys ↔ scan'.Covers keys)) :
    covered table scan keys = covered table scan' keys := by
  by_cases hcolumn : column table keys = none
  · simp [covered, hcolumn]
  · have hiff := hcovers hcolumn
    by_cases hcovered : scan.Covers keys
    · rw [covered_of_covers hcovered, covered_of_covers (hiff.mp hcovered)]
    · rw [covered_of_not_covers hcovered, covered_of_not_covers fun h => hcovered (hiff.mpr h)]

theorem lag_of_uncounted_eq_none (hscan : scan.uncounted? = none)
    (path : List σ) : lag table scan path = 0 := by
  cases scan with
  | total row => cases hscan
  | reread row => cases hscan
  | count row value => cases hscan
  | _ => rfl

theorem uncounted_advance (position : List σ) : (advance n table position).uncounted? = none := by
  unfold advance
  split <;> split_ifs <;> rfl

omit [OrderBot σ] in
theorem covers_iff_passed (hscan : scan.uncounted? = none) :
    scan.Covers keys ↔ scan.Passed keys := by
  rw [Scan.Covers, hscan]
  simp

theorem shape_advance {outer : List σ} {last : σ} (houter : outer.length < n) :
    (advance n table (outer ++ [last])).Shape n table := by
  rw [advance, dropLast_concat, getLast?_concat]
  simp only [length_append, length_singleton]
  split
  · rename_i subscript _
    split_ifs with hlast
    · simpa [Scan.Shape] using hlast
    · refine ⟨outer ++ [subscript], ⊥, by simp, ?_⟩
      rw [length_append, length_singleton]
      omega
  · split_ifs with hfirst
    · trivial
    · have hne : outer ≠ [] := by
        rintro rfl
        exact hfirst le_rfl
      refine ⟨outer.dropLast, outer.getLast hne, (dropLast_append_getLast hne).symm, ?_⟩
      rw [length_dropLast]
      omega

variable {state : State σ}

/-- The plan goes on without an entry or a count. -/
theorem Progress.goOn (hprogress : Progress n state) (hshape : scan.Shape n state.table)
    (hcovers : ∀ keys, keys.length = n → column state.table keys ≠ none →
    (scan.Covers keys ↔ state.scan.Covers keys)) (hlag : ∀ path, path.length ≤ 1 →
    lag state.table state.scan path = lag state.table scan path) :
    Progress n { state with scan := scan } where
  triggered := hprogress.triggered
  shape := hshape
  ahead keys hkeys hcolumn hnot :=
    hprogress.ahead keys hkeys hcolumn fun h => hnot ((hcovers keys hkeys hcolumn).mpr h)
  tracks := by
    exact hprogress.tracks.congr hlag fun keys hkeys =>
      covered_congr fun hcolumn => (hcovers keys hkeys hcolumn).symm

theorem Progress.order {position : List σ} (hprogress : Progress n state)
    (hscan : state.scan = .order position) :
    Progress n { state with scan := advance n state.table position } := by
  have hshape := hprogress.shape
  rw [hscan] at hshape
  obtain ⟨outer, last, rfl, houter⟩ := hshape
  refine hprogress.goOn (shape_advance houter) ?_ ?_
  · intro keys hkeys hcolumn
    rw [covers_iff_passed (uncounted_advance _), hscan, covers_iff_passed rfl]
    refine passed_advance_iff hkeys houter ?_ fun hahead => ?_
    · obtain ⟨value, hvalue⟩ := ne_none_iff_exists'.mp hcolumn
      rw [(column_eq_some_iff.mp hvalue).1]
      rfl
    · refine hprogress.ahead keys hkeys hcolumn ?_
      rwa [hscan, covers_iff_passed rfl]
  · intro path _
    rw [hscan, lag_of_uncounted_eq_none rfl, lag_of_uncounted_eq_none (uncounted_advance _)]

theorem Progress.read (hprogress : Progress n state) (hscan : state.scan = .read row)
    (hcolumn : column state.table row ≠ none) : Progress n { state with
      scan := .entry row ((state.table.get row).getD ⊥) } := by
  obtain ⟨value, hvalue⟩ := ne_none_iff_exists'.mp hcolumn
  have hrow := hprogress.shape
  rw [hscan] at hrow
  rw [getD_of_column hvalue]
  refine hprogress.goOn ⟨hrow, hvalue⟩ ?_ ?_
  · intro keys _ _
    rw [hscan, covers_iff_passed rfl, covers_iff_passed rfl]
    rfl
  · intro path _
    rw [hscan, lag_of_uncounted_eq_none rfl, lag_of_uncounted_eq_none rfl]

theorem Progress.reread (hprogress : Progress n state) (hscan : state.scan = .reread row) :
    Progress n { state with
      scan := .count row ((state.table.get row).getD ⊥) } := by
  have hshape := hprogress.shape
  rw [hscan] at hshape
  obtain ⟨hrow, value, hvalue⟩ := hshape
  rw [getD_of_column hvalue]
  refine hprogress.goOn ⟨hrow, hvalue⟩ ?_ ?_
  · intro keys _ _
    rw [hscan]
    rfl
  · intro path _
    rw [hscan]
    rfl

section

variable (hn : 0 < n) (hprogress : Progress n state)
include hn hprogress

/-- The entry of the row is set before it is counted. -/
theorem Progress.entry (hscan : state.scan = .entry row value) : Progress n { state with
      xref := state.xref.set (value :: row) .entry, scan := .total row } := by
  have hshape := hprogress.shape
  rw [hscan] at hshape
  obtain ⟨hrow, hvalue⟩ := hshape
  have htracks := hprogress.tracks
  have hcovers : ∀ keys, (Scan.total row).Covers keys ↔ state.scan.Covers keys ∨ keys = row := by
    intro keys
    rw [hscan]
    simp [Scan.Covers, Scan.Passed, Scan.uncounted?, eq_comm]
  have hnot : ¬state.scan.Covers row := by
    rw [hscan, covers_iff_passed rfl]
    exact lt_irrefl row
  have hentry : value :: row ∉ xrefEntries n state.xref := by
    rw [htracks.entry_iff value row hrow, covered_of_not_covers hnot]
    simp
  have hlag : ∀ path : List σ, path.length ≤ 1 → laggedCounts (xrefEntries n state.xref)
      (lag state.table state.scan) path =
      laggedCounts (insert (value :: row) (xrefEntries n state.xref))
      (lag state.table (.total row)) path := by
    intro path _
    rw [laggedCounts, laggedCounts, countsOf_insert hentry, hscan,
      lag_of_uncounted_eq_none rfl, lag, getD_of_column hvalue]
    omega
  refine ⟨hprogress.triggered, ⟨hrow, value, hvalue⟩, ?_, ?_⟩
  · intro keys hkeys hcolumn hahead
    exact hprogress.ahead keys hkeys hcolumn fun h => hahead ((hcovers keys).mpr (.inl h))
  · have hset := (htracks.holds.setEntry hn (by simp [hrow] :
      (value :: row).length = n + 1)).congr hlag
    refine hset.tracks fun other keys hkeys => ?_
    rw [Finset.mem_insert, htracks.entry_iff other keys hkeys]
    by_cases heq : keys = row
    · subst heq
      rw [covered_of_covers ((hcovers keys).mpr (.inr rfl)), covered_of_not_covers hnot, hvalue]
      simp [eq_comm]
    · by_cases hcovered : state.scan.Covers keys
      · rw [covered_of_covers ((hcovers keys).mpr (.inl hcovered)), covered_of_covers hcovered]
        simp [heq]
      · rw [covered_of_not_covers hcovered, covered_of_not_covers fun h =>
          ((hcovers keys).mp h).elim hcovered heq]
        simp [heq]

/-- A count of the row catches up. -/
theorem Progress.increment {path : List σ}
    (hpath : path.length ≤ 1) (hshape : scan.Shape n state.table)
    (hcovers : ∀ keys, keys.length = n → (scan.Covers keys ↔ state.scan.Covers keys))
    (hlag : ∀ other : List σ, other.length ≤ 1 → lag state.table state.scan other =
    lag state.table scan other + if other = path then 1 else 0) : Progress n { state with
      xref := incrementBy 1 path state.xref, scan := scan } := by
  refine ⟨hprogress.triggered, hshape, ?_, ?_⟩
  · intro keys hkeys hcolumn hahead
    exact hprogress.ahead keys hkeys hcolumn fun h => hahead ((hcovers keys hkeys).mpr h)
  · have hcounts : XrefHolds n (xrefEntries n state.xref)
        (laggedCounts (xrefEntries n state.xref) (lag state.table scan))
        (incrementBy 1 path state.xref) := by
      refine (hprogress.tracks.holds.increment hn 1 hpath).congr fun other hother => ?_
      by_cases heq : other = path
      · rw [heq, Function.update_self, laggedCounts, laggedCounts, hlag path hpath, if_pos rfl]
        omega
      · rw [Function.update_of_ne heq, laggedCounts, laggedCounts, hlag other hother, if_neg heq]
        omega
    refine hcounts.tracks fun value keys hkeys => ?_
    rw [hprogress.tracks.entry_iff value keys hkeys,
      covered_congr fun _ => (hcovers keys hkeys).symm]

theorem Progress.total (hscan : state.scan = .total row) : Progress n { state with
      xref := incrementBy 1 [] state.xref
      scan := if xrefCount (incrementBy 1 [] state.xref) [] = 0
        then .order row else .reread row } := by
  have hshape := hprogress.shape
  rw [hscan] at hshape
  obtain ⟨hrow, value, hvalue⟩ := hshape
  have hcovers : state.scan.Covers row := by
    rw [hscan]
    exact .inr rfl
  have hentry : value :: row ∈ xrefEntries n state.xref := by
    rw [hprogress.tracks.entry_iff value row hrow, covered_of_covers hcovers]
    exact hvalue
  have hnonzero : xrefCount (incrementBy 1 [] state.xref) [] ≠ 0 := by
    have hcard := Finset.card_pos.mpr ⟨_, hentry⟩
    rw [xrefCount_incrementBy, Function.update_self, hprogress.tracks.holds.counts_eq [] (by simp),
      laggedCounts, hscan, lag, if_pos nil_prefix]
    have htotal : countsOf (xrefEntries n state.xref) [] = (xrefEntries n state.xref).card := by
      simp [countsOf, entriesBelow]
    omega
  rw [if_neg hnonzero]
  refine hprogress.increment hn (by simp) ⟨hrow, value, hvalue⟩ ?_ ?_
  · intro keys _
    rw [hscan]
    rfl
  · intro other hother
    rw [hscan, lag, lag, getD_of_column hvalue]
    rcases other with _ | ⟨first, _ | ⟨second, rest⟩⟩
    · simp
    · simp [cons_prefix_cons]
    · simp at hother

theorem Progress.count (hscan : state.scan = .count row value) : Progress n { state with
      xref := incrementBy 1 [value] state.xref, scan := .order row } := by
  have hshape := hprogress.shape
  rw [hscan] at hshape
  obtain ⟨hrow, hvalue⟩ := hshape
  have hne : row ≠ [] := ne_nil_of_length_pos (by omega)
  refine hprogress.increment hn (by simp) ?_ ?_ ?_
  · refine ⟨row.dropLast, row.getLast hne, (dropLast_append_getLast hne).symm, ?_⟩
    rw [length_dropLast]
    omega
  · intro keys hkeys
    rw [covers_iff_passed rfl, hscan, Scan.Passed,
      behind_iff_le (hkeys.trans hrow.symm), le_iff_lt_or_eq]
    simp [Scan.Covers, Scan.Passed, Scan.uncounted?, eq_comm]
  · intro other _
    have hzero : lag state.table (.order row) other = 0 :=
      lag_of_uncounted_eq_none rfl other
    rw [hzero, hscan, lag, getD_of_column hvalue]
    simp

end

end Build

section Updates

variable {n : ℕ} {state next : State σ} {table : Global σ σ}
  {xref : Global σ XrefValue} {keys row : List σ} {value : σ}

theorem column_set : column (state.table.set keys value) row =
    if row = keys then (some value).filter (· ≠ ⊥)
    else column state.table row := by
  split_ifs with heq
  · rw [heq, column, Global.get_set_self]
  · rw [column, Global.get_set_ne _ _ heq, column]

theorem column_kill (hkeys : keys.length = n) (hrow : row.length = n) :
    column (state.table.kill keys) row =
      if row = keys then none else column state.table row := by
  rw [column, Global.get_kill]
  split_ifs with hpre heq heq
  · rfl
  · exact absurd (hpre.eq_of_length (hkeys.trans hrow.symm)).symm heq
  · exact absurd (heq ▸ prefix_rfl) hpre
  · rfl

theorem length_of_inProgress (hprogress : Progress n state)
    (hrow : row ∈ state.scan.inProgress?) : row.length = n := by
  have hshape := hprogress.shape
  revert hrow hshape
  cases state.scan <;>
    simp +contextual [Scan.inProgress?, Scan.uncounted?, Scan.Shape]

variable {scan : Scan σ}

theorem Scan.Shape.congr (hshape : scan.Shape n state.table) (hrow : ∀ row ∈ scan.inProgress?,
    column table row = column state.table row) : scan.Shape n table := by
  cases scan with
  | entry row _ | count row _ => exact ⟨hshape.1, (hrow row rfl).trans hshape.2⟩
  | total row | reread row =>
    obtain ⟨hlength, value, hvalue⟩ := hshape
    exact ⟨hlength, value, (hrow row rfl).trans hvalue⟩
  | idle => trivial
  | finished => trivial
  | order position => exact hshape
  | read row => exact hshape

theorem exists_column_of_uncounted (hshape : scan.Shape n table) (hrow : row ∈ scan.uncounted?) :
    ∃ value, column table row = some value := by
  cases scan <;> simp_all [Scan.uncounted?, Scan.Shape]

theorem lag_congr (hshape : scan.Shape n state.table) (hrow : ∀ row ∈ scan.inProgress?,
    column table row = column state.table row) (path : List σ) :
    lag state.table scan path = lag table scan path := by
  have hget : ∀ row ∈ scan.uncounted?, row ∈ scan.inProgress? →
      (state.table.get row).getD ⊥ = (table.get row).getD ⊥ := by
    intro row huncounted hprogress
    obtain ⟨value, hvalue⟩ := exists_column_of_uncounted hshape huncounted
    rw [getD_of_column hvalue, getD_of_column ((hrow row hprogress).trans hvalue)]
  cases scan with
  | total row => rw [lag, lag, hget row rfl rfl]
  | reread row => rw [lag, lag, hget row rfl rfl]
  | count row value => rw [lag, lag, hget row rfl rfl]
  | _ => rfl

/-- The table changes, but not in the row that is being counted. -/
theorem Progress.update (hprogress : Progress n state) (hrow : ∀ row ∈ state.scan.inProgress?,
    column table row = column state.table row)
    (hahead : ∀ keys, keys.length = n → column table keys ≠ none →
    column state.table keys ≠ none ∨ state.scan.Covers keys)
    (htracks : XrefTracks n (lag state.table state.scan) (covered table state.scan) xref) :
    Progress n { state with table := table, xref := xref } where
  triggered := hprogress.triggered
  shape := hprogress.shape.congr hrow
  ahead keys hkeys hcolumn hnot := by
    rcases hahead keys hkeys hcolumn with hold | hcovers
    · exact hprogress.ahead keys hkeys hold hnot
    · exact absurd hcovers hnot
  tracks := htracks.congr (fun path _ => lag_congr hprogress.shape hrow path) fun _ _ => rfl

/-- An update that the cross reference does not see. -/
theorem Progress.update_same (hprogress : Progress n state) (hcolumn : ∀ keys, keys.length = n →
    column table keys = column state.table keys) : Progress n { state with table := table } :=
  hprogress.update (fun row hrow => hcolumn row (length_of_inProgress hprogress hrow))
    (fun keys hkeys h => .inl (by rwa [hcolumn keys hkeys] at h))
    (hprogress.tracks.congr (fun _ _ => rfl) fun keys hkeys =>
      covered_of_column_eq (hcolumn keys hkeys).symm)

/-- A row changes that is not being counted, and its trigger brings no lagging
count to zero. -/
theorem Progress.trigger (hn : 0 < n) {trigger : Trigger σ} (hprogress : Progress n state)
    (hother : ∀ row, row.length = n → row ≠ keys → column table row = column state.table row)
    (hrow : keys ∉ state.scan.inProgress?)
    (hcovers : column table keys ≠ none → state.scan.Covers keys)
    (htrue : trigger.IsTrue n (covered state.table state.scan))
    (hspares : trigger.Spares (lag state.table state.scan)
    (covered state.table state.scan) state.xref)
    (happly : trigger.apply (covered state.table state.scan) =
    Function.update (covered state.table state.scan) keys (covered table state.scan keys)) :
    ∃ later, handleSet state.xref trigger = some later ∧
    Progress n { state with table := table, xref := later } := by
  obtain ⟨later, hlater, htracks⟩ :=
    hprogress.tracks.handleSet hn htrue hspares
  refine ⟨later, hlater, hprogress.update ?_ ?_ (htracks.congr (fun _ _ => rfl) ?_)⟩
  · intro row hprogressRow
    exact hother row (length_of_inProgress hprogress hprogressRow)
      fun heq => hrow (heq ▸ hprogressRow)
  · intro row hlength hcolumn
    by_cases hne : row = keys
    · exact .inr (hne ▸ hcovers (hne ▸ hcolumn))
    · exact .inl (by rwa [hother row hlength hne] at hcolumn)
  · intro row hlength
    rw [happly]
    by_cases hne : row = keys
    · rw [hne, Function.update_self]
    · rw [Function.update_of_ne hne]
      exact covered_of_column_eq (hother row hlength hne).symm

/-- A count of a value lags behind only for the value of the row. -/
theorem column_of_lag_ne_zero (hshape : scan.Shape n table) (hlag : lag table scan [value] ≠ 0) :
    ∃ row ∈ scan.uncounted?, column table row = some value := by
  cases scan with
  | total row | reread row =>
    obtain ⟨-, old, hold⟩ := hshape
    simp only [lag, getD_of_column hold, ite_ne_right_iff, cons_prefix_cons,
      List.cons.injEq] at hlag
    exact ⟨row, rfl, by rw [hold, hlag.1.1]⟩
  | count row old =>
    obtain ⟨-, hold⟩ := hshape
    rw [lag, getD_of_column hold, ite_ne_right_iff, List.cons.injEq] at hlag
    exact ⟨row, rfl, by rw [hold, hlag.1.1]⟩
  | _ => exact absurd rfl hlag

theorem value_spared (hshape : state.scan.Shape n state.table)
    (hcount : ∀ row ∈ state.scan.uncounted?,
    column state.table row = some value → xrefCount state.xref [value] ≠ 1) :
    lag state.table state.scan [value] = 0 ∨ xrefCount state.xref [value] ≠ 1 := by
  by_cases hlag : lag state.table state.scan [value] = 0
  · exact .inl hlag
  · obtain ⟨row, hrow, hcolumn⟩ := column_of_lag_ne_zero hshape hlag
    exact .inr (hcount row hrow hcolumn)

omit [OrderBot σ] in
theorem not_inProgress_of_passed (hpassed : scan.Passed keys) : keys ∉ scan.inProgress? := by
  intro hrow
  cases scan <;>
    simp only [Scan.inProgress?, Scan.uncounted?, mem_def, some.injEq, reduceCtorEq] at hrow
  all_goals exact ne_of_gt hpassed hrow

omit [LinearOrder σ] [OrderBot σ] in
theorem mem_inProgress_of_uncounted (hrow : row ∈ scan.uncounted?) : row ∈ scan.inProgress? := by
  cases scan <;> simp_all [Scan.inProgress?, Scan.uncounted?]

theorem Progress.set (hn : 0 < n) (hprogress : Progress n state) (hkeys : keys.length = n)
    (hscan : state.scan ≠ .idle) (htimely : Timely n state (.set keys value))
    (hnext : XrefBuild.set state keys value = some next) : Progress n next := by
  have hother : ∀ row, row ≠ keys →
      column (state.table.set keys value) row = column state.table row :=
    fun row hne => by rw [column_set, if_neg hne]
  by_cases hsame : column state.table keys = column (state.table.set keys value) keys
  · simp only [XrefBuild.set, hsame, ne_eq, not_true_eq_false, and_false,
      if_false, map_some, some.injEq] at hnext
    subst hnext
    refine hprogress.update_same fun row _ => ?_
    by_cases hne : row = keys
    · rw [hne, hsame]
    · exact hother row hne
  · obtain ⟨hpassed, hcount⟩ := htimely.resolve_left hscan hsame
    have hcovers : state.scan.Covers keys := .inl hpassed
    have htrue : (Trigger.set keys (column state.table keys)
        (column (state.table.set keys value) keys)).IsTrue n (covered state.table state.scan) :=
      ⟨hkeys, covered_of_covers hcovers⟩
    obtain ⟨later, hlater, hresult⟩ := hprogress.trigger hn
      (fun row _ => hother row) (not_inProgress_of_passed hpassed) (fun _ => hcovers) htrue
      (fun old hold => value_spared hprogress.shape fun row hrow => hcount row hrow old hold)
      (by rw [Trigger.apply, covered_of_covers hcovers])
    have hfires : state.triggered = true ∧ column state.table keys ≠
        column (state.table.set keys value) keys :=
      ⟨hprogress.triggered, hsame⟩
    simp only [XrefBuild.set, if_pos hfires, hlater, map_some, some.injEq] at hnext
    exact hnext ▸ hresult

theorem spares_kill (hshape : state.scan.Shape n state.table) (hrow : keys ∉ state.scan.inProgress?)
    (hcount : state.scan.Passed keys →
    ∀ row ∈ state.scan.uncounted?, ∀ old ∈ column state.table keys,
    (column state.table row = some old →
    xrefCount state.xref [old] ≠ 1) ∧ xrefCount state.xref [] ≠ 1) :
    (Trigger.kill keys).Spares (lag state.table state.scan)
    (covered state.table state.scan) state.xref := by
  intro old hold
  have hcovers : state.scan.Covers keys := by
    by_contra hnot
    rw [covered_of_not_covers hnot] at hold
    cases hold
  rw [covered_of_covers hcovers] at hold
  have hpassed : state.scan.Passed keys :=
    hcovers.resolve_right fun h => hrow (mem_inProgress_of_uncounted h)
  refine ⟨value_spared hshape fun row huncounted =>
    (hcount hpassed row huncounted old hold).1, ?_⟩
  cases huncounted : state.scan.uncounted? with
  | none => exact .inl fun path _ => lag_of_uncounted_eq_none huncounted path
  | some row => exact .inr (hcount hpassed row huncounted old hold).2

theorem Progress.kill (hn : 0 < n) (hprogress : Progress n state) (hkeys : keys.length = n)
    (hscan : state.scan ≠ .idle) (htimely : Timely n state (.kill keys))
    (hnext : XrefBuild.kill state keys = some next) : Progress n next := by
  obtain ⟨hrow, hcount⟩ := htimely.resolve_left hscan
  have hother : ∀ row, row.length = n → row ≠ keys →
      column (state.table.kill keys) row = column state.table row :=
    fun row hlength hne => by rw [column_kill hkeys hlength, if_neg hne]
  have hnone : column (state.table.kill keys) keys = none := by
    rw [column_kill hkeys hkeys, if_pos rfl]
  by_cases hdata : (state.table.get keys).isSome = true
  · have htrue : (Trigger.kill keys).IsTrue n (covered state.table state.scan) := hkeys
    obtain ⟨later, hlater, hresult⟩ := hprogress.trigger hn hother hrow
      (fun h => absurd hnone h) htrue (spares_kill hprogress.shape hrow hcount) (by
        have hcovered : covered (state.table.kill keys) state.scan keys =
            none := by
          rw [covered, hnone, ite_self]
        rw [Trigger.apply, hcovered])
    simp only [XrefBuild.kill, if_pos (And.intro hprogress.triggered hdata),
      hlater, map_some, some.injEq] at hnext
    exact hnext ▸ hresult
  · simp only [XrefBuild.kill, hdata, Bool.false_eq_true, and_false, if_false,
      map_some, some.injEq] at hnext
    subst hnext
    refine hprogress.update_same fun row hlength => ?_
    by_cases hne : row = keys
    · have hget : state.table.get keys = none := by simpa using hdata
      rw [hne, hnone, column, hget]
      rfl
    · exact hother row hlength hne

end Updates

section Runs

variable {n : ℕ} {state next : State σ}

theorem Progress.start (hn : 0 < n) (hnodes : state.xref.nodes = [])
    (hrows : ∀ keys, keys.length = n → column state.table keys ≠ none → ⊥ ∉ keys) :
    Progress n { state with triggered := true, scan := .order [⊥] } := by
  have hpaths : state.xref.paths = ∅ := by
    rw [Global.paths, hnodes]
    rfl
  have hentries : xrefEntries n state.xref = ∅ := by
    rw [xrefEntries, hpaths, Finset.filter_empty]
  have hcovered : ∀ keys, keys.length = n → covered state.table (.order [⊥]) keys = none := by
    intro keys hkeys
    by_contra hne
    have hcovers : (Scan.order [⊥]).Covers keys := by
      by_contra hnot
      exact hne (covered_of_not_covers hnot)
    rw [covered_of_covers hcovers] at hne
    cases keys with
    | nil => simp at hkeys; omega
    | cons key rest =>
      have hbehind : Behind [⊥] (key :: rest) :=
        (covers_iff_passed rfl).mp hcovers
      rw [behind_singleton_iff, le_bot_iff] at hbehind
      exact hrows _ hkeys hne (by simp [hbehind])
  refine ⟨rfl, ⟨[], ⊥, rfl, hn⟩, fun keys hkeys hcolumn _ =>
    hrows keys hkeys hcolumn, ?_⟩
  have hholds : XrefHolds n ∅ (laggedCounts ∅ (lag state.table (.order [⊥]))) state.xref := by
    refine ⟨fun path hpath => ?_, hentries, fun path _ => ?_⟩
    · rw [hpaths] at hpath
      exact absurd hpath (Finset.notMem_empty path)
    · have hget : state.xref.get path = none := by
        rw [← not_isSome_iff_eq_none, ← Global.mem_paths, hpaths]
        exact Finset.notMem_empty path
      rw [laggedCounts, lag_of_uncounted_eq_none rfl, xrefCount, hget]
      rfl
  refine hholds.tracks fun value keys hkeys => ?_
  rw [hcovered keys hkeys]
  simp

theorem Progress.build (hn : 0 < n) (hprogress : Progress n state) (htimely : Timely n state .build)
    (hnext : XrefBuild.build n state = some next) : Progress n next := by
  unfold XrefBuild.build at hnext
  cases hscan : state.scan with
  | idle =>
    rw [hscan] at hnext
    cases hnext
  | order position =>
    simp only [hscan, some.injEq] at hnext
    exact hnext ▸ hprogress.order hscan
  | read row =>
    simp only [hscan, some.injEq] at hnext
    exact hnext ▸ hprogress.read hscan (htimely row (by rw [hscan]; rfl))
  | entry row value =>
    simp only [hscan, some.injEq] at hnext
    exact hnext ▸ hprogress.entry hn hscan
  | total row =>
    simp only [hscan, some.injEq] at hnext
    exact hnext ▸ hprogress.total hn hscan
  | reread row =>
    simp only [hscan, some.injEq] at hnext
    exact hnext ▸ hprogress.reread hscan
  | count row value =>
    simp only [hscan, some.injEq] at hnext
    exact hnext ▸ hprogress.count hn hscan
  | finished =>
    rw [hscan] at hnext
    cases hnext

/-- No plan is running, or it has come some way. -/
def Invariant (n : ℕ) (state : State σ) : Prop :=
  state.scan = .idle ∨ Progress n state

theorem invariant_step_of_idle (hn : 0 < n) {event : Event σ} (hidle : state.scan = .idle)
    (htimely : Timely n state event) (hnext : XrefBuild.step n state event = some next) :
    Invariant n next := by
  cases event with
  | start =>
    obtain ⟨hnodes, hrows⟩ := htimely hidle
    simp only [XrefBuild.step, hidle, some.injEq] at hnext
    refine .inr (hnext ▸ Progress.start hn hnodes fun keys hkeys hcolumn => ?_)
    obtain ⟨value, hvalue⟩ := ne_none_iff_exists'.mp hcolumn
    obtain ⟨hget, hne⟩ := column_eq_some_iff.mp hvalue
    exact hrows (keys, value) (Global.get_eq_some.mp hget) hkeys hne
  | build =>
    simp [XrefBuild.step, XrefBuild.build, hidle] at hnext
  | stop =>
    simp only [XrefBuild.step, hidle, some.injEq] at hnext
    exact .inl (hnext ▸ rfl)
  | set | kill =>
    rw [XrefBuild.step] at hnext
    split_ifs at hnext
    obtain ⟨xref, -, rfl⟩ := map_eq_some_iff.mp hnext
    exact .inl hidle

theorem invariant_step (hn : 0 < n) {event : Event σ} (hinvariant : Invariant n state)
    (htimely : Timely n state event) (hnext : XrefBuild.step n state event = some next) :
    Invariant n next := by
  by_cases hidle : state.scan = .idle
  · exact invariant_step_of_idle hn hidle htimely hnext
  have hprogress : Progress n state := hinvariant.resolve_left hidle
  cases event with
      try rw [XrefBuild.step] at hnext
  | start =>
    split at hnext
    · contradiction
    · exact .inr (some.inj hnext ▸ hprogress)
    · cases hnext
  | build => exact .inr (hprogress.build hn htimely hnext)
  | stop =>
    split at hnext
    · exact .inr (some.inj hnext ▸ hprogress)
    · exact .inl (some.inj hnext ▸ rfl)
  | set keys value =>
    split_ifs at hnext with hkeys
    exact .inr (hprogress.set hn hkeys hidle htimely hnext)
  | kill keys =>
    split_ifs at hnext with hkeys
    exact .inr (hprogress.kill hn hkeys hidle htimely hnext)

theorem invariant_run (hn : 0 < n) {events : List (Event σ)}
    (hinvariant : Invariant n state) (htimely : TimelyRun n state events)
    (hrun : XrefBuild.run n state events = some next) : Invariant n next := by
  induction events generalizing state with
  | nil => exact some.inj hrun ▸ hinvariant
  | cons event events ih =>
    obtain ⟨middle, hstep, hrest⟩ := bind_eq_some_iff.mp hrun
    exact ih (invariant_step hn hinvariant htimely.1 hstep) (htimely.2 middle hstep) hrest

theorem Progress.consistent (hprogress : Progress n state) (hscan : state.scan = .finished) :
    XrefConsistent n (column state.table) state.xref := by
  rw [xrefConsistent_iff_tracks]
  refine hprogress.tracks.congr (fun path _ => ?_) fun keys _ => ?_
  · rw [hscan]
    rfl
  · rw [hscan]
    exact covered_of_covers (.inl trivial)

end Runs

end XrefBuild

open XrefBuild

/-- A run whose steps are all timely leaves every finished cross reference with
one entry for each row that has a value, and with their numbers. -/
theorem finished_xref_consistent {σ : Type*} [LinearOrder σ] [OrderBot σ] (n : ℕ) (hn : 0 < n)
    (table : Global σ σ) (events : List (XrefBuild.Event σ)) (state : State σ)
    (hrun : run n (initial table) events = some state)
    (htimely : TimelyRun n (initial table) events) (hfinished : state.scan = .finished) :
    XrefConsistent n (column state.table) state.xref := by
  rcases invariant_run hn (.inl rfl) htimely hrun with hidle | hprogress
  · rw [hfinished] at hidle
    cases hidle
  · exact hprogress.consistent hfinished

/-- Two rows; the first one gets another value when it has been passed, and once
more while the second one is being counted. -/
theorem finished_xref_consistent_two : ∃ state : State ℕ,
    run 1 (initial ((Global.empty.set [1] 5).set [2] 6))
    ([.start] ++ List.replicate 6 .build ++ [.set [1] 7] ++
    List.replicate 4 .build ++ [.set [1] 8] ++ List.replicate 3 .build) = some state ∧
    XrefConsistent 1 (column state.table) state.xref := by
  have hsome : (run 1 (initial ((Global.empty.set [1] 5).set [2] 6))
      ([.start] ++ List.replicate 6 .build ++ [.set [1] 7] ++
        List.replicate 4 .build ++ [.set [1] 8] ++
          List.replicate 3 .build)).map State.scan = some .finished := by
    decide
  obtain ⟨state, hrun, hfinished⟩ := map_eq_some_iff.mp hsome
  exact ⟨state, hrun, finished_xref_consistent 1 (by decide) _ _ state hrun (by decide) hfinished⟩

/-- A build that is stopped in the middle of its only row and run again counts
the row twice, and so does the scan when it comes to a row that the trigger has
put in. -/
theorem interrupted_builds_miscount : (run 1 (initial (Global.empty.set [1] 5))
      ([.start] ++ List.replicate 4 .build ++ [.stop, .start] ++
        List.replicate 7 .build)).map (fun state =>
          (state.scan, xrefCount state.xref [], xrefEntries 1 state.xref)) =
      some (.finished, (2 : ℤ), {[5, 1]}) ∧
    (run 1 (initial (Global.empty.set [1] 5))
      ([.start, .set [2] 6] ++ List.replicate 13 .build)).map (fun state =>
          (state.scan, xrefCount state.xref [6], entriesBelow (xrefEntries 1 state.xref) [6])) =
      some (.finished, (2 : ℤ), {[6, 2]}) := by
  decide

end Octo
