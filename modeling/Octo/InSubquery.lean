/-
IN and NOT IN with a sub-query.  The emitted test looks for the value below the
output key, where the rows stand with their columns as subscripts.  EXCEPT and
INTERSECT take rows away by row ids, which are no subscripts there.
-/
import Octo.IndexMirror
import Octo.SelectCode
import Octo.StashedRows

namespace Octo

open GlobalTree RowBag Subscripts List LeafRows SetExpr

variable {σ : Type*} [Subscripts σ] {n uniqueId : ℕ}

/-- `$D(key,x)'=0` -/
def inTest (state : TrackedCursor σ) (uniqueId : ℕ) (x : σ) : Bool :=
  (state.output uniqueId).data [x] != 0

/-- `$D(key,x)=0` -/
def notInTest (state : TrackedCursor σ) (uniqueId : ℕ) (x : σ) : Bool :=
  (state.output uniqueId).data [x] == 0

/-- The rows of the SELECTs.  A tuple of keys that several arms of a SELECT
find gives one row. -/
def LeafRows.once (rows : LeafRows (List (Found σ))) : LeafRows (Multiset (List σ)) :=
  fun path arm =>
    (((rows path arm).filter fun found =>
      (List.range arm).all fun earlier =>
        !((rows path earlier).map Found.tracked).contains found.tracked).map
      Found.columns : List (List σ))

/-- `x` is the first column of some row of the result. -/
def SetExpr.HasFirst (expr : SetExpr) (rows : LeafRows (List (Found σ))) (x : σ) : Prop :=
  ∃ row ∈ expr.meaning rows.once, row.head? = some x

/-- The two tests say whether `x` is a first column of the result. -/
structure TestsRight (expr : SetExpr) (rows : LeafRows (List (Found σ)))
    (uniqueId : ℕ) (state : TrackedCursor σ) (x : σ) : Prop where
  inTest : inTest state uniqueId x = true ↔ expr.HasFirst rows x
  notInTest : notInTest state uniqueId x = true ↔ ¬ expr.HasFirst rows x

variable {rows : LeafRows (List (Found σ))}

theorem testsRight_iff {expr : SetExpr} {state : TrackedCursor σ}
    {x : σ} : TestsRight expr rows uniqueId state x ↔
    ((state.output uniqueId).HasData [x] ↔ expr.HasFirst rows x) := by
  have hin : inTest state uniqueId x = true ↔ (state.output uniqueId).HasData [x] := by
    rw [inTest, bne_iff_ne, Global.data_ne_zero]
  have hnotIn : notInTest state uniqueId x = true ↔ ¬ (state.output uniqueId).HasData [x] := by
    rw [notInTest, beq_iff_eq, ← Global.data_ne_zero, not_not]
  constructor
  · intro hright
    exact hin.symm.trans hright.inTest
  · intro hright
    exact ⟨hin.trans hright, hnotIn.trans (not_congr hright)⟩

omit [Subscripts σ] in
theorem singleton_prefix_iff {row : List σ} {x : σ} : [x] <+: row ↔ row.head? = some x := by
  cases row with
  | nil => simp
  | cons first rest => simp [cons_prefix_cons, eq_comm]

section Unions

def SetExpr.foundRows (expr : SetExpr) (rows : LeafRows (List (Found σ))) : List (Found σ) :=
  (expr.armRows rows).flatten

omit [Subscripts σ] in
theorem SetExpr.foundRows_setOperation (option : SetOption) (left right : SetExpr)
    (rows : LeafRows (List (Found σ))) : (setOperation option left right).foundRows rows =
    left.foundRows rows.left ++ right.foundRows rows.right := by
  rw [foundRows, armRows, flatten_append]
  rfl

variable {arms : ℕ} {rows : LeafRows (List (Found σ))}

omit [Subscripts σ] in
theorem SetExpr.mem_foundRows_select {distinct : Bool} {found : Found σ} :
    found ∈ (select distinct arms).foundRows rows ↔ ∃ arm ≤ arms, found ∈ rows [] arm := by
  simp [foundRows, armRows]

omit [Subscripts σ] in
theorem mem_armsTotal {ρ : Type*} [DecidableEq ρ] {rows : ℕ → Multiset ρ} {row : ρ} :
    row ∈ armsTotal rows arms ↔ ∃ arm ≤ arms, row ∈ rows arm := by
  induction arms with
  | zero => simp [armsTotal]
  | succ arms ih =>
    change row ∈ armsTotal rows arms + rows (arms + 1) ↔ _
    rw [Multiset.mem_add, ih]
    constructor
    · rintro (⟨arm, harm, hrow⟩ | hrow)
      · exact ⟨arm, by omega, hrow⟩
      · exact ⟨arms + 1, le_rfl, hrow⟩
    · rintro ⟨arm, harm, hrow⟩
      rcases Nat.le_succ_iff.mp harm with harm | rfl
      · exact Or.inl ⟨arm, harm, hrow⟩
      · exact Or.inr hrow

theorem mem_capIf {ρ : Type*} [DecidableEq ρ] {single : Bool}
    {rows : Multiset ρ} {row : ρ} : row ∈ capIf single rows ↔ row ∈ rows := by
  cases single <;> simp

variable {path : List Bool} {row : List σ}

theorem mem_once {arm : ℕ} :
    row ∈ rows.once path arm ↔ ∃ found ∈ rows path arm, found.columns = row ∧
    ∀ earlier < arm, ∀ other ∈ rows path earlier, other.tracked ≠ found.tracked := by
  simp only [LeafRows.once, Multiset.mem_coe, mem_map, mem_filter,
    all_eq_true, mem_range, Bool.not_eq_true', contains_eq_mem,
    decide_eq_false_iff_not, not_exists, not_and]
  constructor
  · rintro ⟨found, ⟨hfound, hfirst⟩, hcolumns⟩
    exact ⟨found, hfound, hcolumns, hfirst⟩
  · rintro ⟨found, hfound, hcolumns, hfirst⟩
    exact ⟨found, ⟨hfound, hfirst⟩, hcolumns⟩

/-- Every row that some arm finds is a row of the SELECT. -/
theorem exists_mem_once {all : List (Found σ)} (hall : Keyed n all)
    (hmem : ∀ arm ≤ arms, ∀ found ∈ rows path arm, found ∈ all) :
    (∃ arm ≤ arms, row ∈ rows.once path arm) ↔
      ∃ arm ≤ arms, ∃ found ∈ rows path arm, found.columns = row := by
  constructor
  · rintro ⟨arm, harm, hrow⟩
    obtain ⟨found, hfound, hcolumns, _⟩ := mem_once.mp hrow
    exact ⟨arm, harm, found, hfound, hcolumns⟩
  · rintro ⟨arm, harm, found, hfound, rfl⟩
    -- the first arm that finds the keys of the row
    induction arm using Nat.strong_induction_on generalizing found with
    | h arm ih =>
      by_cases hfirst : ∀ earlier < arm, ∀ other ∈ rows path earlier, other.tracked ≠ found.tracked
      · exact ⟨arm, harm, mem_once.mpr ⟨found, hfound, rfl, hfirst⟩⟩
      · push Not at hfirst
        obtain ⟨earlier, hearlier, other, hother, htracked⟩ := hfirst
        have hle : earlier ≤ arms := by omega
        rw [hall.columns found (hmem arm harm found hfound) other
          (hmem earlier hle other hother) (htracked ▸ prefix_rfl)]
        exact ih earlier hearlier hle other hother

omit [Subscripts σ] in
theorem Keyed.of_subset {rows all : List (Found σ)} (hall : Keyed n all)
    (hsub : ∀ found ∈ rows, found ∈ all) : Keyed n rows :=
  ⟨fun found hfound => hall.length found (hsub found hfound),
    fun first hfirst second hsecond => hall.columns first (hsub first hfirst)
      second (hsub second hsecond)⟩

theorem mem_meaning_iff {expr : SetExpr} (hunion : expr.unionOnly = true)
    (hrows : Keyed n (expr.foundRows rows)) :
    row ∈ expr.meaning rows.once ↔ ∃ found ∈ expr.foundRows rows, found.columns = row := by
  induction expr generalizing rows with
  | select distinct arms =>
    rw [SetExpr.meaning, mem_capIf, mem_armsTotal, exists_mem_once hrows]
    · simp only [mem_foundRows_select]
      constructor
      · rintro ⟨arm, harm, found, hfound, hcolumns⟩
        exact ⟨found, ⟨arm, harm, hfound⟩, hcolumns⟩
      · rintro ⟨found, ⟨arm, harm, hfound⟩, hcolumns⟩
        exact ⟨arm, harm, found, hfound, hcolumns⟩
    · intro arm harm found hfound
      exact mem_foundRows_select.mpr ⟨arm, harm, hfound⟩
  | setOperation option left right ihLeft ihRight =>
    simp only [SetExpr.unionOnly, Bool.and_eq_true, Bool.or_eq_true, beq_iff_eq] at hunion
    obtain ⟨⟨hoption, hleft⟩, hright⟩ := hunion
    rw [foundRows_setOperation] at hrows ⊢
    have hl := ihLeft hleft (hrows.of_subset fun found hfound =>
      mem_append_left _ hfound)
    have hr := ihRight hright (hrows.of_subset fun found hfound =>
      mem_append_right _ hfound)
    have hmeaning : row ∈ (SetExpr.setOperation option left right).meaning
          rows.once ↔ row ∈ left.meaning rows.left.once ∨
        row ∈ right.meaning rows.right.once := by
      rcases hoption with rfl | rfl
      · change row ∈ Multiset.dedup (left.meaning rows.left.once +
          right.meaning rows.right.once) ↔ _
        rw [Multiset.mem_dedup, Multiset.mem_add]
      · change row ∈ left.meaning rows.left.once + right.meaning rows.right.once ↔ _
        rw [Multiset.mem_add]
    rw [hmeaning, hl, hr]
    simp [mem_append, or_and_right, exists_or]

theorem steps_of_unionOnly {expr : SetExpr} (hunion : expr.unionOnly = true)
    {operation : PPSetOperation} {force : Bool} : ∀ step ∈ expr.steps operation force,
    step.1 = operation ∨ step.1 = .union := by
  induction expr generalizing operation force with
  | select distinct arms =>
    intro step hstep
    rcases mem_cons.mp hstep with rfl | hstep
    · exact .inl rfl
    · rw [eq_of_mem_replicate hstep]
      exact .inr rfl
  | setOperation option left right ihLeft ihRight =>
    simp only [unionOnly, Bool.and_eq_true, Bool.or_eq_true, beq_iff_eq] at hunion
    obtain ⟨⟨hoption, hleft⟩, hright⟩ := hunion
    intro step hstep
    rcases mem_append.mp hstep with hstep | hstep
    · exact ihLeft hleft step hstep
    · have hadds : option.setOperation = .union := by
        rcases hoption with rfl | rfl <;> rfl
      rcases ihRight hright step hstep with heq | heq
      · exact .inr (heq.trans hadds)
      · exact .inr heq

end Unions

section Misread

/-- No SELECT has a row. -/
def LeafRows.none : LeafRows Bool := fun _ _ => false

namespace SetExpr

/-- Only the first SELECT has a row. -/
def firstOnly : SetExpr → LeafRows Bool
  | select _ _ => fun _ arm => arm == 0
  | setOperation _ left _ => .join left.firstOnly .none

/-- SELECTs with a row that give the result a row. -/
def present : SetExpr → LeafRows Bool
  | select _ _ => fun _ arm => arm == 0
  | setOperation option left right =>
    .join left.present (if option.setOperation = .except then .none else right.present)

/-- SELECTs with a row that the result does not have and the table keeps: an
outermost EXCEPT or INTERSECT has it on the left. -/
def misread : SetExpr → LeafRows Bool
  | select _ _ => .none
  | setOperation option left right =>
    if option.setOperation = .union then
      if left.unionOnly then .join .none right.misread
      else .join left.misread .none
    else
      .join left.firstOnly (if option.setOperation = .except then right.present else .none)

end SetExpr

def LeafRows.counts (marks : LeafRows Bool) : LeafRows ℕ :=
  marks.map Bool.toNat

@[simp] theorem counts_join_left (l r : LeafRows Bool) : (join l r).counts.left = l.counts := rfl

@[simp] theorem counts_join_right (l r : LeafRows Bool) : (join l r).counts.right = r.counts := rfl

theorem armsTotal_first (arms : ℕ) : armsTotal (fun arm : ℕ => (arm == 0).toNat) arms = 1 := by
  induction arms with
  | zero => rfl
  | succ arms ih =>
    rw [armsTotal, ih]
    rfl

theorem armsTotal_zero (arms : ℕ) : armsTotal (fun _ : ℕ => 0) arms = 0 := by
  induction arms with
  | zero => rfl
  | succ arms ih =>
    rw [armsTotal, ih]
    rfl

namespace SetExpr

theorem meaning_none (expr : SetExpr) : expr.meaning LeafRows.none.counts = 0 := by
  induction expr with
  | select distinct arms =>
    change capIf distinct (armsTotal (fun _ : ℕ => 0) arms) = 0
    rw [armsTotal_zero]
    cases distinct <;> rfl
  | setOperation option left right ihLeft ihRight =>
    rw [meaning]
    change option.meaning (left.meaning LeafRows.none.counts)
      (right.meaning LeafRows.none.counts) = 0
    rw [ihLeft, ihRight]
    cases option <;> rfl

theorem meaning_select_first (distinct : Bool) (arms : ℕ) : (select distinct arms).meaning
    (LeafRows.counts fun _ arm => arm == 0) = 1 := by
  change capIf distinct (armsTotal (fun arm : ℕ => (arm == 0).toNat) arms) = 1
  rw [armsTotal_first]
  cases distinct <;> rfl

theorem meaning_counts (option : SetOption) (left right : SetExpr) (l r : LeafRows Bool) :
    (setOperation option left right).meaning (LeafRows.join l r).counts =
    option.setOperation.apply option.isDistinct (left.meaning l.counts) (right.meaning r.counts) :=
  option.meaning_eq_apply _ _

theorem meaning_firstOnly (expr : SetExpr) : expr.meaning expr.firstOnly.counts ≤ 1 := by
  induction expr with
  | select distinct arms => exact (meaning_select_first distinct arms).le
  | setOperation option left right ihLeft _ =>
    rw [firstOnly, meaning_counts, meaning_none]
    cases option <;> simp [SetOption.setOperation, SetOption.isDistinct,
      PPSetOperation.apply] <;> omega

theorem meaning_present (expr : SetExpr) : 0 < expr.meaning expr.present.counts := by
  induction expr with
  | select distinct arms =>
    have hone := meaning_select_first distinct arms
    exact Nat.lt_of_lt_of_eq Nat.one_pos hone.symm
  | setOperation option left right ihLeft ihRight =>
    rw [present, meaning_counts]
    have hnone := right.meaning_none
    cases option <;> simp [SetOption.setOperation, SetOption.isDistinct,
      PPSetOperation.apply, hnone] <;> omega

theorem meaning_misread {expr : SetExpr} (hunion : expr.unionOnly = false) :
    expr.meaning expr.misread.counts = 0 := by
  induction expr with
  | select distinct arms => simp [unionOnly] at hunion
  | setOperation option left right ihLeft ihRight =>
    have hfirst := left.meaning_firstOnly
    have hpresent := right.meaning_present
    have hleftNone := left.meaning_none
    have hrightNone := right.meaning_none
    rw [misread]
    split_ifs with hoption hleft hexcept
    · have hright : right.unionOnly = false := by
        cases option <;> simp_all [unionOnly, SetOption.setOperation]
      rw [meaning_counts, hoption, hleftNone, ihRight hright]
      cases option.isDistinct <;> rfl
    · rw [meaning_counts, hoption, hrightNone, ihLeft (by simpa using hleft)]
      cases option.isDistinct <;> rfl
    · rw [meaning_counts, hexcept]
      have hcap := capIf_le option.isDistinct (left.meaning left.firstOnly.counts)
      simp only [PPSetOperation.apply, sub_nat]
      omega
    · have hintersect : option.setOperation = .intersect := by
        cases option <;> simp_all [SetOption.setOperation]
      rw [meaning_counts, hintersect, hrightNone]
      simp only [PPSetOperation.apply, inter_nat, Nat.min_zero]
      cases option.isDistinct <;> rfl

end SetExpr

/-- The marked SELECTs find `row`, each at keys of its own. -/
def LeafRows.marked (row : List σ) (node : List Bool → List σ)
    (marks : LeafRows Bool) : LeafRows (List (Found σ)) :=
  fun path arm => if marks path arm then [⟨node path, row⟩] else []

variable (row : List σ) (node : List Bool → List σ)

omit [Subscripts σ] in
theorem marked_join_left (l r : LeafRows Bool) :
    (marked row node (join l r)).left = marked row (fun path => node (false :: path)) l := rfl

omit [Subscripts σ] in
theorem marked_join_right (l r : LeafRows Bool) : (marked row node (join l r)).right =
    marked row (fun path => node (true :: path)) r := rfl

def LeafRows.FirstArms (marks : LeafRows Bool) : Prop :=
  ∀ path arm, marks path arm = true → arm = 0

theorem LeafRows.FirstArms.join {l r : LeafRows Bool} (hl : l.FirstArms)
    (hr : r.FirstArms) : (LeafRows.join l r).FirstArms
  | [], arm => hl [] arm
  | false :: path, arm => hl path arm
  | true :: path, arm => hr path arm

theorem none_firstArms : LeafRows.none.FirstArms := nofun

namespace SetExpr

theorem firstOnly_firstArms (expr : SetExpr) : expr.firstOnly.FirstArms := by
  induction expr with
  | select distinct arms => exact fun _ _ harm => beq_iff_eq.mp harm
  | setOperation option left right ihLeft _ =>
    exact ihLeft.join none_firstArms

theorem present_firstArms (expr : SetExpr) : expr.present.FirstArms := by
  induction expr with
  | select distinct arms => exact fun _ _ harm => beq_iff_eq.mp harm
  | setOperation option left right ihLeft ihRight =>
    rw [present]
    split_ifs
    · exact ihLeft.join none_firstArms
    · exact ihLeft.join ihRight

theorem misread_firstArms (expr : SetExpr) : expr.misread.FirstArms := by
  induction expr with
  | select distinct arms => exact none_firstArms
  | setOperation option left right ihLeft ihRight =>
    rw [misread]
    split_ifs
    · exact none_firstArms.join ihRight
    · exact ihLeft.join none_firstArms
    · exact left.firstOnly_firstArms.join right.present_firstArms
    · exact left.firstOnly_firstArms.join none_firstArms

end SetExpr

theorem once_marked {marks : LeafRows Bool} (hmarks : marks.FirstArms)
    (row : List σ) (node : List Bool → List σ) (path : List Bool) (arm : ℕ) :
    (marked row node marks).once path arm =
      if marks path arm then {row} else 0 := by
  unfold LeafRows.once
  by_cases hmark : marks path arm = true
  · obtain rfl := hmarks path arm hmark
    simp [marked, hmark]
  · simp [marked, hmark]

theorem not_hasFirst_misread {expr : SetExpr} (hunion : expr.unionOnly = false)
    (row : List σ) (node : List Bool → List σ) (x : σ) :
    ¬ expr.HasFirst (marked row node expr.misread) x := by
  rintro ⟨other, hother, _⟩
  have hpos := Multiset.count_pos.mpr hother
  rw [map_meaning (count_isBagHom other)] at hpos
  have hcounts : (marked row node expr.misread).once.map (Multiset.count other) =
        if other = row then expr.misread.counts else LeafRows.none.counts := by
    funext path arm
    rw [LeafRows.map, once_marked expr.misread_firstArms]
    by_cases hrow : other = row
    · cases hmark : expr.misread path arm <;>
        simp [hrow, LeafRows.counts, LeafRows.map, hmark]
    · cases expr.misread path arm <;>
        simp [hrow, LeafRows.counts, LeafRows.map, LeafRows.none]
  rw [hcounts] at hpos
  split_ifs at hpos
  · rw [meaning_misread hunion] at hpos
    exact Nat.lt_irrefl 0 hpos
  · rw [meaning_none] at hpos
    exact Nat.lt_irrefl 0 hpos

namespace SetExpr

omit [Subscripts σ] in
theorem mem_armRows {α : Type*} {expr : SetExpr} {rows : LeafRows α} {a : α}
    (hmem : a ∈ expr.armRows rows) : ∃ path arm, a = rows path arm := by
  induction expr generalizing rows with
  | select distinct arms =>
    obtain ⟨arm, _, rfl⟩ := mem_map.mp hmem
    exact ⟨[], arm, rfl⟩
  | setOperation option left right ihLeft ihRight =>
    rcases mem_append.mp hmem with hmem | hmem
    · obtain ⟨path, arm, rfl⟩ := ihLeft hmem
      exact ⟨false :: path, arm, rfl⟩
    · obtain ⟨path, arm, rfl⟩ := ihRight hmem
      exact ⟨true :: path, arm, rfl⟩

omit [Subscripts σ] in
theorem columns_of_mem_marked {expr : SetExpr} {row : List σ}
    {node : List Bool → List σ} {marks : LeafRows Bool} {founds : List (Found σ)}
    (hmem : founds ∈ expr.armRows (LeafRows.marked row node marks)) :
    ∀ found ∈ founds, found.columns = row := by
  obtain ⟨path, arm, rfl⟩ := mem_armRows hmem
  intro found hfound
  unfold LeafRows.marked at hfound
  split at hfound
  · rw [mem_singleton.mp hfound]
  · simp at hfound

omit [Subscripts σ] in
theorem armRows_firstOnly (expr : SetExpr) (row : List σ) (node : List Bool → List σ) :
    ∃ tracked rest, expr.armRows (LeafRows.marked row node expr.firstOnly) = [⟨tracked, row⟩] ::
    rest := by
  induction expr generalizing node with
  | select distinct arms =>
    rw [armRows, range_succ_eq_map]
    exact ⟨node [], _, rfl⟩
  | setOperation option left right ihLeft _ =>
    obtain ⟨tracked, rest, hleft⟩ := ihLeft fun path => node (false :: path)
    rw [armRows, firstOnly, marked_join_left, hleft]
    exact ⟨tracked, _, rfl⟩

omit [Subscripts σ] in
/-- The first SELECT that finds a row adds it. -/
theorem exists_misread_step {expr : SetExpr} (hunion : expr.unionOnly = false)
    (operation : PPSetOperation) (force : Bool) (row : List σ) (node : List Bool → List σ) :
    ∃ front step tracked back, (expr.steps operation force).zip
    (expr.armRows (LeafRows.marked row node expr.misread)) = front ++ (step, [⟨tracked, row⟩]) ::
    back ∧ (∀ other ∈ front, other.2 = []) ∧ (step.1 = operation ∨ step.1 = .union) := by
  induction expr generalizing operation force node with
  | select distinct arms => simp [unionOnly] at hunion
  | setOperation option left right ihLeft ihRight =>
    rw [steps, armRows, zip_append (steps_length left _ _ _), misread]
    split_ifs with hoption hleft
    · have hright : right.unionOnly = false := by
        cases option <;> simp_all [unionOnly, SetOption.setOperation]
      obtain ⟨front, step, tracked, back, hsteps, hfront, hstep⟩ :=
        ihRight hright option.setOperation option.isDistinct fun path => node (true :: path)
      rw [marked_join_right, hsteps]
      refine ⟨_, step, tracked, back, (append_assoc _ _ _).symm, ?_, ?_⟩
      · intro other hother
        rcases mem_append.mp hother with hother | hother
        · obtain ⟨path, arm, heq⟩ := mem_armRows (of_mem_zip hother).2
          exact heq
        · exact hfront other hother
      · rw [hoption, or_self] at hstep
        exact Or.inr hstep
    · obtain ⟨front, step, tracked, back, hsteps, hfront, hstep⟩ :=
        ihLeft (by simpa using hleft) operation (force || option.isDistinct)
          fun path => node (false :: path)
      rw [marked_join_left, hsteps]
      exact ⟨front, step, tracked, _, append_assoc _ _ _, hfront, hstep⟩
    all_goals
      obtain ⟨tracked, rows, hrows⟩ := left.armRows_firstOnly row fun path => node (false :: path)
      obtain ⟨distinct, rest, hsteps⟩ := left.steps_eq
      rw [marked_join_left, hsteps, hrows]
      exact ⟨[], _, tracked, _, rfl, by simp, Or.inl rfl⟩

end SetExpr

end Misread

/-- The planner turns a sub-query into a chain of plans that all store their
columns in subscripts. -/
theorem Realises.stashedChain {expr : SetExpr} {plan : LogicalPlan}
    (hplan : Realises uniqueId expr plan) (hapart : Apart uniqueId plan)
    {options : PhysicalPlanOptions} {state later : PlannerState} {id : ℕ} (hfresh : state.Fresh)
    (hunused : outputPlans uniqueId state = []) (hgen : generatePhysicalPlan plan
      { options with stashColumnsInKeys := true } state = some (id, later)) :
    ∃ first rest, outputPlans uniqueId later = first :: rest ∧
      (first :: rest).map PhysicalPlan.step = expr.steps .notSet false ∧
      (∀ planned ∈ first :: rest, Stashes uniqueId planned) ∧
      first.setOperation = .notSet ∧
      ∀ planned ∈ rest, planned.setOperation ≠ .notSet := by
  obtain ⟨distinct, rest, hsteps, hplanned⟩ := hplan.planned hapart hfresh hgen
  obtain ⟨head, tail, hplans, _, hhead, htail, _, huniform⟩ := hplanned.added
  rw [hunused, append_nil] at hplans
  have htailSteps := (expr.steps_ne_notSet .notSet false).2
  rw [hsteps, tail_cons, ← htail] at htailSteps
  refine ⟨head, tail, hplans, ?_, ?_, congrArg Prod.fst hhead, ?_⟩
  · rw [map_cons, hhead, htail, hsteps]
  · intro planned hmem
    refine ⟨?_, huniform.stash planned hmem⟩
    rw [← hplans] at hmem
    simpa using (mem_filter.mp hmem).2
  · intro planned hmem
    exact htailSteps planned.step (mem_map_of_mem hmem)

/-- Before the sub-query runs, neither the index nor the tracker has a node
for one of its rows. -/
def SetExpr.Clean (expr : SetExpr) (rows : LeafRows (List (Found σ)))
    (start : TrackedCursor σ) : Prop :=
  ∀ found ∈ expr.foundRows rows, start.cursor.index.data found.columns = 0 ∧
    start.dupl.data found.tracked = 0

/-- Every first column is that of some row that passes the tests of its plan as
the index and the tracker are before the sub-query runs. -/
def StoresFirsts (steps : List (PhysicalPlan × List (Found σ))) (start : TrackedCursor σ) : Prop :=
  ∀ step ∈ steps, ∀ found ∈ step.2, ∃ other ∈ steps, ∃ same ∈ other.2,
    same.columns.head? = found.columns.head? ∧ foundPasses other.1 same start = true

section Chain

variable {expr : SetExpr} {plans : List PhysicalPlan}

omit [Subscripts σ] in
theorem exists_armRows_cons (expr : SetExpr) (rows : LeafRows (List (Found σ))) :
    ∃ founds operands, expr.armRows rows = founds :: operands := by
  have hlength := expr.steps_length .notSet false rows
  obtain ⟨distinct, rest, hsteps⟩ := expr.steps_eq
  rw [hsteps, length_cons] at hlength
  exact exists_cons_of_length_eq_add_one hlength.symm

omit [Subscripts σ] in
theorem flatMap_zip_armRows (hsteps : plans.map PhysicalPlan.step = expr.steps .notSet false)
    (rows : LeafRows (List (Found σ))) :
    (plans.zip (expr.armRows rows)).flatMap Prod.snd = expr.foundRows rows := by
  have hlength : (expr.armRows rows).length ≤ plans.length := by
    rw [← expr.steps_length .notSet false, ← hsteps, length_map]
  rw [List.flatMap, map_snd_zip hlength]
  rfl

variable {first : PhysicalPlan} {rest : List PhysicalPlan}

/-- In a chain of unions the tests are right if every first column can be
stored. -/
theorem unions_right_iff (hn : 0 < n) (hunion : expr.unionOnly = true)
    (hsteps : (first :: rest).map PhysicalPlan.step = expr.steps .notSet false)
    (hstashes : ∀ plan ∈ first :: rest, Stashes uniqueId plan)
    (hfirst : first.setOperation = .notSet) (hrest : ∀ plan ∈ rest, plan.setOperation ≠ .notSet)
    (hrows : Keyed n (expr.foundRows rows))
    (start : TrackedCursor σ) : (∀ x, TestsRight expr rows uniqueId
    (runFounds ((first :: rest).zip (expr.armRows rows)) start) x) ↔
    StoresFirsts ((first :: rest).zip (expr.armRows rows)) start := by
  have hflat := flatMap_zip_armRows hsteps rows
  have hadds : ∀ plan ∈ rest, plan.setOperation = .union := by
    intro plan hplan
    have hmem : plan.step ∈ expr.steps .notSet false := by
      rw [← hsteps]
      exact mem_map_of_mem (mem_cons_of_mem _ hplan)
    exact (steps_of_unionOnly hunion _ hmem).resolve_left (hrest plan hplan)
  have hdata : ∀ x, ((runFounds ((first :: rest).zip (expr.armRows rows))
      start).output uniqueId).HasData [x] ↔
        ∃ step ∈ (first :: rest).zip (expr.armRows rows), ∃ found ∈ step.2,
          foundPasses step.1 found start = true ∧ [x] <+: found.columns := by
    intro x
    obtain ⟨founds, operands, hoperands⟩ := exists_armRows_cons expr rows
    rw [hoperands, zip_cons_cons] at hflat ⊢
    refine runFounds_hasData (hstashes first (by simp)) hfirst ?_ (hflat ▸ hrows) start x
    intro step hstep
    have hmem := (of_mem_zip hstep).1
    exact ⟨hstashes step.1 (mem_cons_of_mem _ hmem), hadds step.1 hmem⟩
  have hfirsts : ∀ x, expr.HasFirst rows x ↔
      ∃ step ∈ (first :: rest).zip (expr.armRows rows), ∃ found ∈ step.2,
        found.columns.head? = some x := by
    intro x
    unfold SetExpr.HasFirst
    simp only [mem_meaning_iff hunion hrows, ← hflat, mem_flatMap]
    constructor
    · rintro ⟨_, ⟨found, ⟨step, hstep, hfound⟩, rfl⟩, hx⟩
      exact ⟨step, hstep, found, hfound, hx⟩
    · rintro ⟨step, hstep, found, hfound, hx⟩
      exact ⟨_, ⟨found, ⟨step, hstep, hfound⟩, rfl⟩, hx⟩
  simp only [testsRight_iff, hdata, hfirsts, singleton_prefix_iff]
  constructor
  · intro hright step hstep found hfound
    have hmem : found ∈ expr.foundRows rows := by
      rw [← hflat]
      exact mem_flatMap.mpr ⟨step, hstep, hfound⟩
    obtain ⟨x, hx⟩ : ∃ x, found.columns.head? = some x := by
      have hlength := hrows.length found hmem
      cases hcolumns : found.columns with
      | nil =>
        rw [hcolumns, length_nil] at hlength
        omega
      | cons x columns => exact ⟨x, rfl⟩
    obtain ⟨other, hother, same, hsame, hpasses, hhead⟩ :=
      (hright x).mpr ⟨step, hstep, found, hfound, hx⟩
    exact ⟨other, hother, same, hsame, hhead.trans hx.symm, hpasses⟩
  · intro hstores x
    constructor
    · rintro ⟨step, hstep, found, hfound, _, hx⟩
      exact ⟨step, hstep, found, hfound, hx⟩
    · rintro ⟨step, hstep, found, hfound, hx⟩
      obtain ⟨other, hother, same, hsame, hhead, hpasses⟩ :=
        hstores step hstep found hfound
      exact ⟨other, hother, same, hsame, hpasses, hhead.trans hx⟩

theorem storesFirsts_of_clean (hsteps : plans.map PhysicalPlan.step = expr.steps .notSet false)
    {start : TrackedCursor σ} (hclean : expr.Clean rows start) :
    StoresFirsts (plans.zip (expr.armRows rows)) start := by
  intro step hstep found hfound
  refine ⟨step, hstep, found, hfound, rfl, ?_⟩
  have hmem : found ∈ expr.foundRows rows := by
    rw [← flatMap_zip_armRows hsteps]
    exact mem_flatMap.mpr ⟨step, hstep, hfound⟩
  obtain ⟨hindex, hdupl⟩ := hclean found hmem
  simp [foundPasses, rowPasses, hindex, hdupl]

/-- A row that an EXCEPT or INTERSECT should take away is still found. -/
theorem misread_hasData (hn : 0 < n) {x : σ} (hx : ∀ id, x ≠ ofNat id)
    (hunion : expr.unionOnly = false)
    (hsteps : (first :: rest).map PhysicalPlan.step = expr.steps .notSet false)
    (hstashes : ∀ plan ∈ first :: rest, Stashes uniqueId plan)
    (hrest : ∀ plan ∈ rest, plan.setOperation ≠ .notSet) (node : List Bool → List σ) :
    ((runFounds ((first :: rest).zip (expr.armRows (marked
    (List.replicate n x) node expr.misread))) .empty).output uniqueId).HasData [x] := by
  let row := List.replicate n x
  let operands := expr.armRows (marked row node expr.misread)
  obtain ⟨front, step, tracked, back, hzip, hfront, hstep⟩ :=
    exists_misread_step hunion .notSet false row node
  rw [← hsteps, zip_map_left] at hzip
  obtain ⟨steps, later, hsplit, rfl, hlater⟩ := map_eq_append_iff.mp hzip
  obtain ⟨⟨plan, founds⟩, last, rfl, heq, rfl⟩ :=
    map_eq_cons_iff.mp hlater
  obtain ⟨rfl, rfl⟩ := heq
  have hmem : ∀ planned ∈ (first :: rest).zip operands,
      Stashes uniqueId planned.1 ∧ ∀ found ∈ planned.2, found.columns = row := by
    intro planned hplanned
    obtain ⟨hplan, hfounds⟩ := of_mem_zip hplanned
    exact ⟨hstashes _ hplan, columns_of_mem_marked hfounds⟩
  have hafter : ∀ planned ∈ last, planned.1.setOperation ≠ .notSet := by
    intro planned hplanned
    have htail : planned ∈ ((first :: rest).zip operands).tail := by
      rw [hsplit]
      cases steps with
      | nil => exact hplanned
      | cons step steps => simp [hplanned]
    have hrestMem : planned ∈ rest.zip operands.tail := by
      cases hoperands : operands with
      | nil => simp [hoperands] at htail
      | cons head tail => simpa [hoperands] using htail
    exact hrest _ (of_mem_zip hrestMem).1
  rw [hsplit] at hmem ⊢
  have hnone : ∀ planned ∈ steps, planned.2 = [] := by
    intro planned hplanned
    exact hfront _ (mem_map_of_mem hplanned)
  obtain ⟨hindex, hdupl⟩ :=
    @runFounds_of_no_rows σ _ steps .empty hnone rfl rfl
  obtain ⟨hstash, _⟩ := hmem (plan, [⟨tracked, row⟩]) (by simp)
  have hhead : row.head? = some x := by
    simp [row, head?_replicate, Nat.ne_of_gt hn]
  have hkept : Kept uniqueId (Found.mk tracked row).columns x
      (runFound plan [⟨tracked, row⟩] (runFounds steps .empty)).cursor :=
    kept_runFound_single hstash hstep hhead hindex hdupl
  have hrow : row ≠ [] := fun hnil => by simp [hnil] at hhead
  rw [runFounds, foldl_append]
  refine (hkept.runFounds hrow hx fun planned hplanned => ?_).stored
  obtain ⟨hstashLast, hcolumns⟩ := hmem planned (by simp [hplanned])
  exact ⟨hstashLast, hafter planned hplanned, hcolumns⟩

end Chain

namespace InSubqueryWitness

open SetPlanWitness

/-- `SELECT id FROM names UNION SELECT id FROM names WHERE id = '1'` -/
def unionNames : LogicalPlan := .setOperation .union allNames (oneName "1")

/-- `SELECT id FROM names EXCEPT SELECT id FROM names WHERE id = '1'` -/
def exceptNames : LogicalPlan := .setOperation .except allNames (oneName "1")

/-- `SELECT DISTINCT id FROM names` -/
def distinctNames : LogicalPlan := planned .null none [.distinct]

theorem unionNames_realises : Realises 1
    (.setOperation .union (.select false 0) (.select false 0)) unionNames :=
  .setOperation (.select (.leaf allNames_select) rfl) (.select (.leaf (oneName_select "1")) rfl)

theorem exceptNames_realises : Realises 1
    (.setOperation .except (.select false 0) (.select false 0)) exceptNames :=
  .setOperation (.select (.leaf allNames_select) rfl) (.select (.leaf (oneName_select "1")) rfl)

theorem distinctNames_realises : Realises 1 (.select true 0) distinctNames :=
  .select (.leaf (.insert rfl rfl)) rfl

def name : MSubscript := textSubscript ['A', 'n', 'n']

/-- Every SELECT finds the name, at keys of its own. -/
def oneRow : LeafRows (List (Found MSubscript))
  | [true], _ => [⟨[numberSubscript 2, name], [name]⟩]
  | _, _ => [⟨[numberSubscript 1, name], [name]⟩]

/-- The plans of a sub-query, run so many times. -/
def runTimes (plan : LogicalPlan) (expr : SetExpr) (times : ℕ) :
    Option (TrackedCursor MSubscript) :=
  (generatePhysicalPlan plan ⟨none, true⟩ .empty).map fun planned =>
    (runFounds ((outputPlans 1 planned.2).zip (expr.armRows oneRow)))^[times] .empty

end InSubqueryWitness

end Octo
