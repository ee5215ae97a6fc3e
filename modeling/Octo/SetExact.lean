/-
The classification of set expressions is exact.  An expression outside it has
rows for which the list of steps leaves a wrong number of copies: some step
meets the output of an operand it was not made for, and one or two copies of
one row are enough to show it.
-/
import Octo.SetLinear

namespace Octo

open RowBag SetOption PPSetOperation LeafRows Multiset
open Bool hiding true_and

namespace SetExpr

section Probes

/-- No SELECT has the row. -/
def noRows : LeafRows ℕ := fun _ _ => 0

/-- Every plan of every SELECT has the row `n` times. -/
def allRows (n : ℕ) : LeafRows ℕ := fun _ _ => n

/-- The row is where it takes one copy to have one in the result. -/
def oneRow : SetExpr → LeafRows ℕ
  | select _ _ => fun _ arm => if arm = 0 then 1 else 0
  | setOperation option left right =>
    LeafRows.join left.oneRow (if option.setOperation = .intersect then right.oneRow else noRows)

/-- Every step that can keep the row or add it does. -/
def liveRows : SetExpr → PPSetOperation → LeafRows ℕ
  | select _ _, operation => fun _ arm =>
    if arm = 0 ∧ operation = .except then 0 else 1
  | setOperation option left right, operation =>
    LeafRows.join (left.liveRows operation) (right.liveRows option.setOperation)

@[simp] theorem left_noRows : noRows.left = noRows := rfl

@[simp] theorem right_noRows : noRows.right = noRows := rfl

theorem armsRest_eq_zero (rows : Nat → ℕ) (hrows : ∀ arm, rows (arm + 1) = 0)
    (arms : Nat) : armsRest rows arms = 0 := by
  induction arms with
  | zero => rfl
  | succ arms ih => simp [armsRest, ih, hrows]

theorem runArms_le (distinct : Bool) (rows : Nat → ℕ) (arms acc : Nat) :
    runArms distinct rows arms acc ≤ acc + armsRest rows arms := by
  cases distinct with
  | false => rw [runArms_false]
  | true =>
    cases arms with
    | zero => simp [runArms_zero]
    | succ arms =>
      rw [runArms_true]
      omega

theorem runArms_pos {distinct : Bool} {rows : Nat → ℕ} {arms acc : Nat}
    (hpos : 0 < acc ∨ 0 < armsRest rows arms) : 0 < runArms distinct rows arms acc := by
  cases distinct with
  | false =>
    rw [runArms_false]
    omega
  | true =>
    cases arms with
    | zero => simpa [runArms_zero, armsRest] using hpos
    | succ arms =>
      rw [runArms_true]
      omega

theorem apply_or_le (operation : PPSetOperation) (single distinct : Bool) (acc rows : ℕ) :
    operation.apply (single || distinct) acc rows ≤ operation.apply distinct acc rows := by
  cases operation <;> cases single <;> cases distinct <;> (simp [apply]; try omega)

theorem meaning_noRows (expr : SetExpr) : expr.meaning noRows = 0 := by
  induction expr with
  | select distinct arms =>
    have hrest := armsRest_eq_zero (noRows []) (fun _ => rfl) arms
    simp only [meaning, armsTotal_eq, hrest]
    cases distinct <;> rfl
  | setOperation option left right ihLeft ihRight =>
    simp only [meaning, left_noRows, right_noRows, ihLeft, ihRight]
    cases option <;> rfl

theorem run_noRows_le (expr : SetExpr) (operation : PPSetOperation) (distinct : Bool) (acc : ℕ) :
    expr.run operation distinct noRows acc ≤ acc := by
  induction expr generalizing operation distinct acc with
  | select single arms =>
    have hrest := armsRest_eq_zero (noRows []) (fun _ => rfl) arms
    have hle := runArms_le single (noRows []) arms (operation.apply (single || distinct) acc 0)
    have hfirst : operation.apply (single || distinct) acc 0 ≤ acc := by
      cases operation <;> cases single || distinct <;> simp [apply]
    change runArms single (noRows []) arms (operation.apply (single || distinct) acc 0) ≤ acc
    omega
  | setOperation option left right ihLeft ihRight =>
    exact Nat.le_trans (ihRight _ _ _) (ihLeft _ _ _)

theorem run_intersect_noRows (expr : SetExpr) (distinct : Bool) (acc : ℕ) :
    expr.run .intersect distinct noRows acc = 0 := by
  induction expr generalizing distinct acc with
  | select single arms =>
    have hrest := armsRest_eq_zero (noRows []) (fun _ => rfl) arms
    have hle := runArms_le single (noRows []) arms 0
    have hfirst : intersect.apply (single || distinct) acc (noRows [] 0) = 0 := by
      simp [apply, noRows, capIf_nat]
    simp only [run, hfirst]
    omega
  | setOperation option left right ihLeft _ =>
    have hle := run_noRows_le right option.setOperation option.isDistinct 0
    simp only [run, left_noRows, right_noRows, ihLeft]
    omega

theorem meaning_oneRow (expr : SetExpr) : expr.meaning expr.oneRow = 1 := by
  induction expr with
  | select distinct arms =>
    have hrest := armsRest_eq_zero ((select distinct arms).oneRow []) (fun _ => rfl) arms
    simp only [meaning, armsTotal_eq, hrest]
    cases distinct <;> rfl
  | setOperation option left right ihLeft ihRight =>
    simp only [meaning_join, oneRow, ihLeft]
    cases option <;> simp [SetOption.setOperation, SetOption.meaning, meaning_noRows, ihRight]

/-- Only the first step meets the row. -/
theorem run_oneRow_le (expr : SetExpr) (operation : PPSetOperation) (distinct : Bool) (acc : ℕ) :
    expr.run operation distinct expr.oneRow acc ≤ operation.apply distinct acc 1 := by
  induction expr generalizing operation distinct acc with
  | select single arms =>
    have hrest := armsRest_eq_zero ((select single arms).oneRow []) (fun _ => rfl) arms
    have hle := runArms_le single ((select single arms).oneRow []) arms
      (operation.apply (single || distinct) acc 1)
    have hor := apply_or_le operation single distinct acc 1
    change runArms single ((select single arms).oneRow []) arms
      (operation.apply (single || distinct) acc 1) ≤ _
    omega
  | setOperation option left right ihLeft ihRight =>
    have hor := apply_or_le operation option.isDistinct distinct acc 1
    have hleft := ihLeft operation (distinct || option.isDistinct) acc
    rw [Bool.or_comm] at hor
    refine Nat.le_trans ?_ (Nat.le_trans hleft hor)
    simp only [run_join, oneRow]
    by_cases hkind : option.setOperation = .intersect
    · simp only [hkind, ↓reduceIte]
      refine Nat.le_trans (ihRight _ _ _) ?_
      exact Nat.le_trans (capIf_le _ _) (Nat.min_le_left _ _)
    · simp only [hkind, ↓reduceIte]
      exact run_noRows_le right _ _ _

/-- Below a set operation without ALL the first step is distinct. -/
theorem run_oneRow_distinct_le {option : SetOption} (hoption : option.isDistinct = true)
    (left right : SetExpr) (distinct : Bool) (acc : ℕ) :
    (setOperation option left right).run .union distinct
    (setOperation option left right).oneRow acc ≤ 1 := by
  have hleft := run_oneRow_le left .union true acc
  simp only [apply, capIf_true_nat, add_nat] at hleft
  simp only [run_join, oneRow, hoption, Bool.or_true]
  by_cases hkind : option.setOperation = .intersect
  · have hright := run_oneRow_le right .intersect true (left.run .union true left.oneRow acc)
    simp only [apply, capIf_true_nat, inter_nat] at hright
    simp only [hkind, ↓reduceIte]
    omega
  · have hright := run_noRows_le right option.setOperation true
      (left.run .union true left.oneRow acc)
    simp only [hkind, ↓reduceIte]
    omega

theorem run_liveRows_pos (expr : SetExpr) {operation : PPSetOperation}
    (distinct : Bool) {acc : ℕ} (hacc : 0 < acc ∨ operation = .union) :
    0 < expr.run operation distinct (expr.liveRows operation) acc := by
  induction expr generalizing operation distinct acc with
  | select single arms =>
    simp only [run, liveRows, true_and]
    apply runArms_pos
    left
    cases operation <;>
      simp [apply, capIf_pos] at hacc ⊢ <;> try omega
  | setOperation option left right ihLeft ihRight =>
    exact ihRight _ (.inl (ihLeft _ hacc))

end Probes

section Necessity

variable {expr : SetExpr}

theorem exists_run_ne_add (hexpr : expr.addsAll = false) :
    ∃ k ≤ 1, ∃ rows, expr.run .union false rows k ≠ k + expr.meaning rows := by
  induction expr with
  | select single arms =>
    have hsingle : single = true := by simpa [addsAll] using hexpr
    subst hsingle
    refine ⟨1, le_rfl, (select true arms).oneRow, ?_⟩
    have hrest := armsRest_eq_zero ((select true arms).oneRow []) (fun _ => rfl) arms
    have hle := runArms_le true ((select true arms).oneRow []) arms 1
    have hmeaning := meaning_oneRow (select true arms)
    change runArms true _ arms 1 ≠ _
    omega
  | setOperation option left right ihLeft ihRight =>
    by_cases hoption : option.isDistinct = true
    · -- the result is capped although there was a copy before
      refine ⟨1, le_rfl, (setOperation option left right).oneRow, fun heq => ?_⟩
      have hle := run_oneRow_distinct_le hoption left right false 1
      rw [heq, meaning_oneRow] at hle
      omega
    cases option with
    | union => exact absurd rfl hoption
    | except => exact absurd rfl hoption
    | intersect => exact absurd rfl hoption
    | unionAll =>
      cases hright : right.addsAll with
      | false =>
        obtain ⟨k, hk, rows, hne⟩ := ihRight hright
        have hle := run_noRows_le left .union false k
        by_cases heq : left.run .union false noRows k = k
        · refine ⟨k, hk, join noRows rows, ?_⟩
          simpa [run, meaning, SetOption.meaning, SetOption.setOperation,
            isDistinct, heq, meaning_noRows] using hne
        · refine ⟨k, hk, noRows, ?_⟩
          have hrun := run_noRows_le right .union false (left.run .union false noRows k)
          simp only [run, SetOption.setOperation, isDistinct,
            Bool.or_false, left_noRows, right_noRows]
          omega
      | true =>
        have hleft : left.addsAll = false := by
          simpa [addsAll, hright] using hexpr
        obtain ⟨k, hk, rows, hne⟩ := ihLeft hleft
        refine ⟨k, hk, join rows noRows, ?_⟩
        simpa [run, meaning, SetOption.meaning, SetOption.setOperation, isDistinct,
          run_addsAll hright, meaning_noRows] using hne
    | exceptAll =>
      refine ⟨1, le_rfl, join noRows right.oneRow, ?_⟩
      have hleft := run_noRows_le left .union false 1
      have hrun := run_oneRow_le right .except false (left.run .union false noRows 1)
      simp only [apply, capIf_false, sub_nat] at hrun
      simp only [run_join, SetOption.setOperation, isDistinct, Bool.or_false,
        meaning_join, SetOption.meaning, meaning_noRows, sub_nat]
      omega
    | intersectAll =>
      refine ⟨1, le_rfl, noRows, ?_⟩
      rw [meaning_noRows]
      simp [run, SetOption.setOperation, run_intersect_noRows]

/-- The output is lost where an EXCEPT or INTERSECT stands below a UNION. -/
theorem run_eq_zero_of_not_union {option : SetOption} (hoption : option.setOperation ≠ .union)
    (left right : SetExpr) (operation : PPSetOperation) (distinct : Bool) : ∃ rows : LeafRows ℕ,
    (setOperation option left right).run operation distinct rows 1 = 0 ∧
    (setOperation option left right).meaning rows = 0 := by
  have hleft := run_noRows_le left operation (distinct || option.isDistinct) 1
  by_cases hkind : option.setOperation = .intersect
  · refine ⟨noRows, ?_, meaning_noRows _⟩
    simp [run, hkind, right_noRows, run_intersect_noRows]
  · have hexcept : option.setOperation = .except := by
      cases option <;> simp_all [SetOption.setOperation]
    refine ⟨join noRows right.oneRow, ?_, ?_⟩
    · have hrun := run_oneRow_le right .except option.isDistinct
        (left.run operation (distinct || option.isDistinct) noRows 1)
      have hcap := capIf_le option.isDistinct
        (left.run operation (distinct || option.isDistinct) noRows 1)
      simp only [apply, sub_nat] at hrun
      simp only [run_join, hexcept]
      omega
    · cases option <;> simp [SetOption.setOperation] at hexcept <;>
        simp [meaning, SetOption.meaning, meaning_noRows]

/-- A list of steps that leaves a row it should not, or none where it should,
on an output of at most one copy. -/
def Differs (expr : SetExpr) (operation : PPSetOperation) (distinct : Bool) :
    Prop :=
  ∃ k ≤ 1, ∃ rows, ¬ (0 < expr.run operation distinct rows k ↔
    0 < operation.apply false k (expr.meaning rows))

theorem apply_pos_congr (operation : PPSetOperation) {k m n : ℕ} (hk : k ≤ 1)
    (hmn : 0 < m ↔ 0 < n) : 0 < operation.apply false k m ↔ 0 < operation.apply false k n := by
  cases operation <;> simp [apply] <;> omega

theorem meaning_pos (option : SetOption) {k : ℕ} (hk : k ≤ 1) (m : ℕ) :
    0 < option.meaning k m ↔ 0 < option.setOperation.apply false k m := by
  cases option <;>
    (simp [SetOption.meaning, SetOption.setOperation, apply]; try omega)

section Operands

variable {option : SetOption} {left right : SetExpr} {operation : PPSetOperation} {distinct : Bool}

/-- A fault of the left operand shows if the right one can be made neutral. -/
theorem differs_of_left (rowsRight : LeafRows ℕ)
    (hrun : ∀ a, 0 < right.run option.setOperation option.isDistinct rowsRight a ↔ 0 < a)
    (hmeaning : ∀ m : ℕ, 0 < option.meaning m (right.meaning rowsRight) ↔ 0 < m)
    (hleft : left.Differs operation (distinct || option.isDistinct)) :
    (setOperation option left right).Differs operation distinct := by
  obtain ⟨k, hk, rows, hne⟩ := hleft
  refine ⟨k, hk, join rows rowsRight, ?_⟩
  rw [run_join, hrun, meaning_join, apply_pos_congr operation hk (hmeaning (left.meaning rows))]
  exact hne

theorem differs_left_union (hkind : option.setOperation = .union) (hright : right.unionOnly = true)
    (hleft : left.Differs operation (distinct || option.isDistinct)) :
    (setOperation option left right).Differs operation distinct := by
  refine differs_of_left noRows (fun a => ?_) (fun m => ?_) hleft
  · rw [hkind, run_unionOnly_pos hright, meaning_noRows]
    omega
  · cases option <;> simp [SetOption.setOperation] at hkind <;>
      simp [SetOption.meaning, meaning_noRows]

theorem differs_left_except (hkind : option.setOperation = .except)
    (hright : right.isOnePlan = true)
    (hleft : left.Differs operation (distinct || option.isDistinct)) :
    (setOperation option left right).Differs operation distinct := by
  refine differs_of_left noRows (fun a => ?_) (fun m => ?_) hleft
  · rw [hkind, (run_except_onePlan hright _ _ _).1]
    exact capIf_pos _ a
  · cases option <;> simp [SetOption.setOperation] at hkind <;>
      simp [SetOption.meaning, meaning_noRows]

theorem differs_left_intersect (hkind : option.setOperation = .intersect)
    (hright : right.intersectOnly = true)
    (hleft : left.Differs operation (distinct || option.isDistinct)) :
    (setOperation option left right).Differs operation distinct := by
  refine differs_of_left right.oneRow (fun a => ?_) (fun m => ?_) hleft
  · rw [hkind, run_intersectOnly hright, meaning_oneRow, capIf_pos]
    omega
  · cases option <;> simp [SetOption.setOperation] at hkind <;>
      simp [SetOption.meaning, meaning_oneRow]

/-- The left operand can be brought to no copy, and to one copy unless its
steps lose it. -/
theorem exists_left_rows (left : SetExpr) (distinct : Bool)
    (hoperation : operation = .notSet ∨ operation = .intersect) {k : ℕ} (hk : k ≤ 1) :
    (∃ rows, left.run operation distinct rows k = k ∧ left.meaning rows = k) ∨
    left.run operation distinct left.oneRow 1 = 0 := by
  rcases Nat.le_one_iff_eq_zero_or_eq_one.mp hk with rfl | rfl
  · exact .inl ⟨noRows, Nat.le_zero.mp (run_noRows_le left operation distinct 0),
      meaning_noRows left⟩
  · have hle := run_oneRow_le left operation distinct 1
    have hone : operation.apply distinct 1 1 = 1 := by
      rcases hoperation with rfl | rfl <;> cases distinct <;> rfl
    by_cases hzero : left.run operation distinct left.oneRow 1 = 0
    · exact .inr hzero
    · exact .inl ⟨left.oneRow, by omega, meaning_oneRow left⟩

/-- A copy lost on the left is not found again. -/
theorem differs_of_lost (hoperation : operation = .notSet ∨ operation = .intersect)
    (hleft : left.run operation (distinct || option.isDistinct) left.oneRow 1 = 0) :
    (setOperation option left right).Differs operation distinct := by
  refine ⟨1, le_rfl, (setOperation option left right).oneRow, ?_⟩
  have hexpected : 0 < operation.apply false 1 1 := by
    rcases hoperation with rfl | rfl <;> decide
  have hzero : (setOperation option left right).run operation distinct
      (setOperation option left right).oneRow 1 = 0 := by
    simp only [run_join, oneRow, hleft]
    by_cases hkind : option.setOperation = .intersect
    · have hle := run_oneRow_le right .intersect option.isDistinct 0
      have hcap := capIf_le option.isDistinct (min 0 1)
      simp only [apply, inter_nat] at hle
      simp only [hkind, ↓reduceIte]
      omega
    · have hle := run_noRows_le right option.setOperation option.isDistinct 0
      simp only [hkind, ↓reduceIte]
      omega
  rw [hzero, meaning_oneRow]
  omega

/-- A fault of the right operand shows. -/
theorem differs_of_right (hoperation : operation = .notSet ∨
      operation = .intersect ∧ option.setOperation ≠ .union)
    (hright : right.Differs option.setOperation option.isDistinct) :
    (setOperation option left right).Differs operation distinct := by
  obtain ⟨k, hk, rowsRight, hne⟩ := hright
  have hleft := hoperation.imp_right And.left
  rcases exists_left_rows left (distinct || option.isDistinct) hleft hk with
    ⟨rows, hrun, hmeaning⟩ | hlost
  · refine ⟨k, hk, join rows rowsRight, ?_⟩
    rw [run_join, hrun, meaning_join, hmeaning]
    have hpos := meaning_pos option hk (right.meaning rowsRight)
    rcases hoperation with rfl | ⟨rfl, hkind⟩
    · simpa [apply, hpos] using hne
    · -- without a copy before there is none after an EXCEPT or INTERSECT
      have hzero : k = 0 → ¬ 0 < option.meaning k (right.meaning rowsRight) := by
        rintro rfl
        cases option <;> simp [SetOption.setOperation] at hkind <;>
          simp [SetOption.meaning]
      simp only [apply, capIf_false, inter_nat]
      omega
  · exact differs_of_lost hleft hlost

/-- A fault of either operand, if the right one is of the kind that the left
one needs. -/
theorem differs_of_operands {force side rightFits : Bool}
    (hside : (force || option.isDistinct) = side)
    (hright : rightFits = false → right.Differs option.setOperation option.isDistinct)
    (hleft : rightFits = true → left.Differs .notSet (force || option.isDistinct) →
      (setOperation option left right).Differs .notSet force)
    (ih : left.rowsAgree side = false → left.Differs .notSet side)
    (hexpr : (left.rowsAgree side && rightFits) = false) :
    (setOperation option left right).Differs .notSet force := by
  cases hfits : rightFits with
  | false => exact differs_of_right (.inl rfl) (hright hfits)
  | true =>
    apply hleft hfits
    rw [hside]
    exact ih (by simpa [hfits] using hexpr)

end Operands

theorem differs_union (hexpr : expr.unionOnly = false)
    (distinct : Bool) : expr.Differs .union distinct := by
  induction expr generalizing distinct with
  | select single arms => simp [unionOnly] at hexpr
  | setOperation option left right ihLeft ihRight =>
    by_cases hkind : option.setOperation = .union
    · cases hright : right.unionOnly with
      | false =>
        obtain ⟨k, hk, rows, hne⟩ := ihRight hright option.isDistinct
        have hle := run_noRows_le left .union (distinct || option.isDistinct) k
        by_cases heq : left.run .union (distinct || option.isDistinct) noRows k = k
        · refine ⟨k, hk, join noRows rows, ?_⟩
          have hmeaning : 0 < option.meaning 0 (right.meaning rows) ↔ 0 < right.meaning rows := by
            cases option <;> simp [SetOption.setOperation] at hkind <;>
              simp [SetOption.meaning]
          rw [run_join, heq, hkind, meaning_join, meaning_noRows, apply_pos_congr _ hk hmeaning]
          exact hne
        · refine ⟨k, hk, noRows, ?_⟩
          have hrun := run_noRows_le right .union option.isDistinct
            (left.run .union (distinct || option.isDistinct) noRows k)
          simp only [run, hkind, left_noRows, right_noRows,
            apply, capIf_false, add_nat]
          omega
      | true =>
        have hleft : left.unionOnly = false := by
          cases option <;> simp [SetOption.setOperation] at hkind <;>
            simpa [unionOnly, hright] using hexpr
        exact differs_left_union hkind hright (ihLeft hleft _)
    · obtain ⟨rows, hrun, _⟩ :=
        run_eq_zero_of_not_union hkind left right .union distinct
      refine ⟨1, le_rfl, rows, ?_⟩
      simp [hrun, apply]

/-- The last arm adds its copies to the output. -/
theorem exists_two_le_run {distinct : Bool} (hunion : expr.unionOnly = true)
    (hends : expr.endsDistinct distinct = false) : ∃ rows, 2 ≤ expr.run .union distinct rows 0 := by
  induction expr generalizing distinct with
  | select single arms =>
    simp only [endsDistinct, or_eq_false_iff] at hends
    obtain ⟨rfl, hfirst⟩ := hends
    refine ⟨fun _ arm => if arm = arms then 2 else 0, ?_⟩
    simp only [run, runArms_false]
    cases arms with
    | zero =>
      have hdistinct : distinct = false := by simpa using hfirst
      simp [hdistinct, apply]
    | succ arms =>
      simp only [armsRest, ↓reduceIte]
      omega
  | setOperation option left right _ ihRight =>
    simp only [unionOnly, and_eq_true, or_eq_true, beq_iff_eq] at hunion
    obtain ⟨⟨hoption, _⟩, hright⟩ := hunion
    have hkind : option.setOperation = .union := by
      rcases hoption with rfl | rfl <;> rfl
    obtain ⟨rows, hrows⟩ := ihRight hright hends
    refine ⟨join noRows rows, ?_⟩
    have hleft := run_noRows_le left .union (distinct || option.isDistinct) 0
    rw [run_join, hkind, Nat.le_zero.mp hleft]
    exact hrows

theorem run_pos_of_more_arms (single : Bool) (arms : Nat) (operation : PPSetOperation)
    (distinct : Bool) : 0 < (select single (arms + 1)).run operation distinct (allRows 1) 0 := by
  apply runArms_pos
  right
  simp [armsRest, allRows]

theorem exists_run_pos_of_union {option : SetOption} (hkind : option.setOperation = .union)
    (left right : SetExpr) (operation : PPSetOperation) (distinct : Bool) : ∃ rows,
    0 < (setOperation option left right).run operation distinct rows 0 := by
  refine ⟨join noRows (right.liveRows .union), ?_⟩
  rw [run_join, hkind]
  exact run_liveRows_pos right option.isDistinct (.inr rfl)

theorem differs_except (hexpr : expr.isOnePlan = false)
    (distinct : Bool) : expr.Differs .except distinct := by
  cases expr with
  | select single arms =>
    cases arms with
    | zero => simp [isOnePlan] at hexpr
    | succ arms =>
      refine ⟨0, Nat.zero_le 1, allRows 1, ?_⟩
      have hpos := run_pos_of_more_arms single arms .except distinct
      simpa [apply] using Nat.pos_iff_ne_zero.mp hpos
  | setOperation option left right =>
    by_cases hkind : option.setOperation = .union
    · obtain ⟨rows, hpos⟩ :=
        exists_run_pos_of_union hkind left right .except distinct
      refine ⟨0, Nat.zero_le 1, rows, ?_⟩
      simpa [apply] using Nat.pos_iff_ne_zero.mp hpos
    · obtain ⟨rows, hrun, hmeaning⟩ :=
        run_eq_zero_of_not_union hkind left right .except distinct
      refine ⟨1, le_rfl, rows, ?_⟩
      simp [hrun, hmeaning, apply]

theorem exists_le_meaning (hexpr : expr.atMostOnce = false) {n : ℕ}
    (hn : n ≤ 2 ∨ expr.intersectOnly = true) : ∃ rows : LeafRows ℕ, n ≤ expr.meaning rows := by
  induction expr with
  | select single arms =>
    have hsingle : single = false := hexpr
    subst hsingle
    refine ⟨allRows n, ?_⟩
    simp [meaning, armsTotal_eq, allRows]
  | setOperation option left right ihLeft ihRight =>
    cases option with
    | union | except | intersect => simp [atMostOnce] at hexpr
    | unionAll =>
      refine ⟨join left.oneRow right.oneRow, ?_⟩
      simpa [meaning, SetOption.meaning, meaning_oneRow, intersectOnly] using hn
    | exceptAll =>
      simp only [atMostOnce] at hexpr
      obtain ⟨rows, hrows⟩ := ihLeft hexpr (hn.imp_right (by simp [intersectOnly, hexpr]))
      refine ⟨join rows noRows, ?_⟩
      simpa [meaning, SetOption.meaning, meaning_noRows] using hrows
    | intersectAll =>
      simp only [atMostOnce, or_eq_false_iff] at hexpr
      simp only [intersectOnly, and_eq_true] at hn
      obtain ⟨rowsLeft, hleft⟩ := ihLeft hexpr.1 (hn.imp_right And.left)
      obtain ⟨rowsRight, hright⟩ := ihRight hexpr.2 (hn.imp_right And.right)
      refine ⟨join rowsLeft rowsRight, ?_⟩
      simpa [meaning, SetOption.meaning] using ⟨hleft, hright⟩

theorem differs_intersect (hexpr : expr.intersectOnly = false)
    (distinct : Bool) : expr.Differs .intersect distinct := by
  induction expr generalizing distinct with
  | select single arms =>
    cases arms with
    | zero => simp [intersectOnly] at hexpr
    | succ arms =>
      refine ⟨0, Nat.zero_le 1, allRows 1, ?_⟩
      have hpos := run_pos_of_more_arms single arms .intersect distinct
      simpa [apply] using Nat.pos_iff_ne_zero.mp hpos
  | setOperation option left right ihLeft ihRight =>
    by_cases hkind : option.setOperation = .union
    · obtain ⟨rows, hpos⟩ :=
        exists_run_pos_of_union hkind left right .intersect distinct
      refine ⟨0, Nat.zero_le 1, rows, ?_⟩
      simpa [apply] using Nat.pos_iff_ne_zero.mp hpos
    have hinner : right.Differs option.setOperation option.isDistinct →
        (setOperation option left right).Differs .intersect distinct :=
      fun h => differs_of_right (.inr ⟨rfl, hkind⟩) h
    by_cases hinter : option.setOperation = .intersect
    · cases hright : right.intersectOnly with
      | false =>
        apply hinner
        rw [hinter]
        exact ihRight hright _
      | true =>
        have hleft : left.intersectOnly = false := by
          cases option <;> simp [SetOption.setOperation] at hinter <;>
            simpa [intersectOnly, hright] using hexpr
        exact differs_left_intersect hinter hright (ihLeft hleft _)
    have hexcept : option.setOperation = .except := by
      cases option <;> simp_all [SetOption.setOperation]
    cases hone : right.isOnePlan with
    | false =>
      apply hinner
      rw [hexcept]
      exact differs_except hone _
    | true =>
      cases hleft : left.intersectOnly with
      | false => exact differs_left_except hexcept hone (ihLeft hleft _)
      | true =>
        cases option <;> simp [SetOption.setOperation] at hexcept
        · simp [intersectOnly, hone, hleft] at hexpr
        have honce : left.atMostOnce = false := by
          simpa [intersectOnly, hone, hleft] using hexpr
        obtain ⟨rows, hrows⟩ := exists_le_meaning honce (.inl le_rfl)
        refine ⟨1, le_rfl, join rows right.oneRow, ?_⟩
        have hrun := run_oneRow_le right .except false (left.run .intersect distinct rows 1)
        have hcap := capIf_le distinct (min 1 (left.meaning rows))
        rw [run_intersectOnly hleft] at hrun
        simp only [apply, capIf_false, sub_nat] at hrun
        simp only [run_join, SetOption.setOperation, isDistinct, Bool.or_false,
          meaning_join, SetOption.meaning, meaning_oneRow,
          apply, capIf_false, inter_nat, sub_nat, run_intersectOnly hleft]
        omega

theorem run_notSet (expr : SetExpr) (distinct : Bool) (rows : LeafRows ℕ) (acc : ℕ) :
    expr.run .notSet distinct rows acc = expr.run .notSet distinct rows 0 := by
  induction expr generalizing distinct rows with
  | select single arms => rfl
  | setOperation option left right ihLeft _ => rw [run, ihLeft, ← run]

theorem exists_run_ne_of_differs {force : Bool} (hdiffers : expr.Differs .notSet force) :
    ∃ rows, expr.run .notSet force rows 0 ≠ expr.meaning rows := by
  obtain ⟨k, _, rows, hne⟩ := hdiffers
  refine ⟨rows, fun heq => hne ?_⟩
  rw [run_notSet, heq]
  rfl

theorem differs_of_pos {force : Bool} (rows : LeafRows ℕ)
    (hne : ¬ (0 < expr.run .notSet force rows 0 ↔ 0 < expr.meaning rows)) :
    expr.Differs .notSet force :=
  ⟨0, Nat.zero_le 1, rows, hne⟩

/-- The classification is complete. -/
theorem run_disagrees (expr : SetExpr) (force : Bool) : (expr.countsAgree force = false →
    ∃ rows, expr.run .notSet force rows 0 ≠ expr.meaning rows) ∧
    (expr.rowsAgree force = false → expr.Differs .notSet force) := by
  induction expr generalizing force with
  | select single arms =>
    refine ⟨fun hexpr => ?_, fun hexpr => by simp [rowsAgree] at hexpr⟩
    simp only [countsAgree, or_eq_false_iff, not_eq_false'] at hexpr
    obtain ⟨rfl, rfl⟩ := hexpr
    refine ⟨fun _ arm => if arm = 0 then 2 else 0, ?_⟩
    have hrest := armsRest_eq_zero (fun arm => if arm = 0 then 2 else 0) (fun _ => rfl) arms
    simp [run, meaning, runArms_false, armsTotal_eq, hrest, apply]
  | setOperation option left right ihLeft ihRight =>
    have hinner : right.Differs option.setOperation option.isDistinct →
        (setOperation option left right).Differs .notSet force :=
      differs_of_right (.inl rfl)
    cases option with
    | union =>
      have hrows : (left.rowsAgree true && right.unionOnly) = false →
          (setOperation .union left right).Differs .notSet force :=
        differs_of_operands (or_true _) (fun h => differs_union h _)
          (fun h => differs_left_union rfl h) (ihLeft true).2
      refine ⟨fun hexpr => ?_, hrows⟩
      by_cases hside : (left.rowsAgree true && right.unionOnly) = false
      · exact exists_run_ne_of_differs (hrows hside)
      · simp only [not_eq_false, and_eq_true] at hside
        have hends : right.endsDistinct true = false := by
          simpa [countsAgree, hside.1, hside.2] using hexpr
        obtain ⟨rows, htwo⟩ := exists_two_le_run hside.2 hends
        refine ⟨join noRows rows, ?_⟩
        have hzero := run_noRows_le left .notSet true 0
        simp only [run_join, SetOption.setOperation, isDistinct, Bool.or_true,
          meaning_join, SetOption.meaning, distinct_nat, Nat.le_zero.mp hzero]
        omega
    | unionAll =>
      constructor
      · intro hexpr
        cases hright : right.addsAll with
        | false =>
          obtain ⟨k, hk, rows, hne⟩ := exists_run_ne_add hright
          rcases exists_left_rows left force (.inl rfl) hk with
            ⟨rowsLeft, hrun, hmeaning⟩ | hlost
          · refine ⟨join rowsLeft rows, ?_⟩
            rw [run_notSet] at hrun
            simpa [run, meaning, SetOption.setOperation, isDistinct, SetOption.meaning,
              hrun, hmeaning] using hne
          · apply exists_run_ne_of_differs
            apply differs_of_lost (.inl rfl)
            simpa [isDistinct] using hlost
        | true =>
          have hleft : left.countsAgree force = false := by
            simpa [countsAgree, hright] using hexpr
          obtain ⟨rows, hne⟩ := (ihLeft force).1 hleft
          refine ⟨join rows noRows, ?_⟩
          simpa [run, meaning, SetOption.setOperation, isDistinct, SetOption.meaning,
            run_addsAll hright, meaning_noRows] using hne
      · exact differs_of_operands (or_false _) (fun h => differs_union h _)
          (fun h => differs_left_union rfl h) (ihLeft force).2
    | except =>
      have hrows : (left.rowsAgree true && right.isOnePlan) = false →
          (setOperation .except left right).Differs .notSet force :=
        differs_of_operands (or_true _) (fun h => differs_except h _)
          (fun h => differs_left_except rfl h) (ihLeft true).2
      exact ⟨fun h => exists_run_ne_of_differs (hrows h), hrows⟩
    | exceptAll =>
      have hrows : (setOperation .exceptAll left right).rowsAgree force = false →
          (setOperation .exceptAll left right).Differs .notSet force := by
        intro hexpr
        cases hright : right.isOnePlan with
        | false => exact hinner (differs_except hright _)
        | true =>
          have hone := run_except_onePlan hright false
          cases honce : right.atMostOnce with
          | false =>
            have hleft : left.countsAgree force = false := by
              simpa [rowsAgree, hright, honce] using hexpr
            obtain ⟨rows, hne⟩ := (ihLeft force).1 hleft
            -- take away the smaller of the two numbers of copies
            apply differs_of_pos (join rows (allRows
              (min (left.run .notSet force rows 0) (left.meaning rows))))
            simp only [run_join, SetOption.setOperation, isDistinct, Bool.or_false,
              (hone _ _).1, (hone _ 0).2, honce,
              capIf_false, meaning_join, SetOption.meaning, sub_nat, allRows]
            omega
          | true =>
            cases hleft : left.rowsAgree force with
            | false =>
              apply differs_left_except rfl hright
              simpa [isDistinct] using (ihLeft force).2 hleft
            | true =>
              have htwice : left.atMostOnce = false := by
                simpa [rowsAgree, hright, honce, hleft] using hexpr
              obtain ⟨rows, hle⟩ := exists_le_meaning htwice (.inl le_rfl)
              apply differs_of_pos (join rows (allRows 1))
              simp only [run_join, SetOption.setOperation, isDistinct, Bool.or_false,
                (hone _ _).1, (hone _ 0).2, honce,
                capIf_true_nat, meaning_join, SetOption.meaning, sub_nat, allRows]
              omega
      exact ⟨fun h => exists_run_ne_of_differs (hrows h), hrows⟩
    | intersect =>
      have hrows : (left.rowsAgree true && right.intersectOnly) = false →
          (setOperation .intersect left right).Differs .notSet force :=
        differs_of_operands (or_true _) (fun h => differs_intersect h _)
          (fun h => differs_left_intersect rfl h) (ihLeft true).2
      exact ⟨fun h => exists_run_ne_of_differs (hrows h), hrows⟩
    | intersectAll =>
      have hrows : (left.rowsAgree force && right.intersectOnly) = false →
          (setOperation .intersectAll left right).Differs .notSet force :=
        differs_of_operands (or_false _) (fun h => differs_intersect h _)
          (fun h => differs_left_intersect rfl h) (ihLeft force).2
      refine ⟨fun hexpr => ?_, hrows⟩
      by_cases hside : (left.rowsAgree force && right.intersectOnly) = false
      · exact exists_run_ne_of_differs (hrows hside)
      · simp only [not_eq_false, and_eq_true] at hside
        have honce : right.atMostOnce = false := by
          cases honce : right.atMostOnce with
          | false => rfl
          | true => simp [countsAgree, hside.1, hside.2, honce] at hexpr
        have hleft : left.countsAgree force = false := by
          simpa [countsAgree, hside.2, honce] using hexpr
        obtain ⟨rows, hne⟩ := (ihLeft force).1 hleft
        obtain ⟨rowsRight, hle⟩ := exists_le_meaning honce (.inr hside.2)
          (n := left.run .notSet force rows 0 + left.meaning rows)
        refine ⟨join rows rowsRight, ?_⟩
        simp only [run_join, SetOption.setOperation, isDistinct, Bool.or_false,
          run_intersectOnly hside.2, capIf_false, meaning_join, SetOption.meaning, inter_nat]
        omega

end Necessity

theorem run_eq_meaning_iff (expr : SetExpr) :
    (∀ rows : LeafRows ℕ, expr.run .notSet false rows 0 = expr.meaning rows) ↔
      expr.isLinear = true := by
  constructor
  · intro hall
    by_contra hlinear
    obtain ⟨rows, hne⟩ :=
      (run_disagrees expr false).1 (not_eq_true _ ▸ hlinear)
    exact hne (hall rows)
  · intro hlinear rows
    exact (run_agrees expr false rows).1 hlinear

/-- The steps of the list give the multiset that SQL assigns to the
expression, for all rows of the SELECTs, exactly if it is linear. -/
theorem execute_eq_meaning_iff {ρ : Type*} [DecidableEq ρ] [Nonempty ρ] (expr : SetExpr) :
    (∀ rows : LeafRows (Multiset ρ), execute (expr.steps .notSet false) (expr.armRows rows) 0 =
    expr.meaning rows) ↔ expr.isLinear = true := by
  simp only [execute_steps, ← run_eq_meaning_iff]
  constructor
  · intro hall rows
    -- one row, with the given numbers of copies
    obtain ⟨row⟩ := ‹Nonempty ρ›
    have hcount := congrArg (count row) (hall (rows.map fun n => replicate n row))
    have hrows : (rows.map fun n => replicate n row).map (count row) = rows := by
      funext path arm
      exact count_replicate_self row (rows path arm)
    rwa [map_run (count_isBagHom row), map_meaning (count_isBagHom row), hrows,
      count_zero] at hcount
  · intro hall rows
    ext row
    rw [map_run (count_isBagHom row), map_meaning (count_isBagHom row), count_zero]
    exact hall _

end SetExpr

end Octo
