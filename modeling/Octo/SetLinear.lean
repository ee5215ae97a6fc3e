/-
Which set expressions keep their meaning as a list of steps.  Everything here
is about the number of copies of one row: each operation acts on each row by
itself.
-/
import Octo.SetExpression
import Mathlib.Tactic

namespace Octo

open RowBag SetOption PPSetOperation

namespace SetExpr

/-- The rows of the plans of a SELECT after its first. -/
def armsRest (rows : Nat → ℕ) : Nat → ℕ
  | 0 => 0
  | arms + 1 => armsRest rows arms + rows (arms + 1)

theorem armsTotal_eq (rows : Nat → ℕ) (arms : Nat) :
    armsTotal rows arms = rows 0 + armsRest rows arms := by
  induction arms with
  | zero => rfl
  | succ arms ih => simp [armsTotal, armsRest, ih, Nat.add_assoc]

theorem runArms_false (rows : Nat → ℕ) (arms acc : Nat) :
    runArms false rows arms acc = acc + armsRest rows arms := by
  induction arms with
  | zero => rfl
  | succ arms ih =>
    simp [runArms, armsRest, ih, apply, Nat.add_assoc]

theorem runArms_true (rows : Nat → ℕ) (arms acc : Nat) : runArms true rows (arms + 1) acc =
    min 1 (acc + armsRest rows (arms + 1)) := by
  induction arms with
  | zero => simp [runArms, armsRest, apply]
  | succ arms ih =>
    have hrest : armsRest rows (arms + 1 + 1) =
        armsRest rows (arms + 1) + rows (arms + 1 + 1) := rfl
    rw [runArms, ih]
    simp only [apply, capIf_true_nat, add_nat]
    omega

theorem runArms_zero (distinct : Bool) (rows : Nat → ℕ) (acc : Nat) :
    runArms distinct rows 0 acc = acc := rfl

section Sufficiency

variable {expr : SetExpr}

theorem meaning_le_one (hexpr : expr.atMostOnce = true)
    (rows : LeafRows ℕ) : expr.meaning rows ≤ 1 := by
  induction expr generalizing rows with
  | select distinct arms =>
    simp only [atMostOnce] at hexpr
    simp [meaning, hexpr]
  | setOperation option left right ihLeft ihRight =>
    cases option <;> simp only [atMostOnce, Bool.or_eq_true, Bool.false_eq_true] at hexpr <;>
      simp only [meaning, SetOption.meaning, distinct_nat, add_nat, sub_nat, inter_nat]
    · omega
    · omega
    · have := ihLeft hexpr rows.left
      omega
    · omega
    · rcases hexpr with hleft | hright
      · have := ihLeft hleft rows.left
        omega
      · have := ihRight hright rows.right
        omega

theorem run_addsAll (hexpr : expr.addsAll = true) (rows : LeafRows ℕ) (acc : ℕ) :
    expr.run .union false rows acc = acc + expr.meaning rows := by
  induction expr generalizing rows acc with
  | select distinct arms =>
    simp only [addsAll, Bool.not_eq_true'] at hexpr
    subst hexpr
    simp [run, meaning, runArms_false, armsTotal_eq, apply, Nat.add_assoc]
  | setOperation option left right ihLeft ihRight =>
    simp only [addsAll, Bool.and_eq_true, beq_iff_eq] at hexpr
    obtain ⟨⟨rfl, hleft⟩, hright⟩ := hexpr
    simp [run, meaning, SetOption.setOperation, isDistinct,
      SetOption.meaning, ihLeft hleft, ihRight hright, Nat.add_assoc]

theorem run_unionOnly_pos (hexpr : expr.unionOnly = true) (distinct : Bool) (rows : LeafRows ℕ)
    (acc : ℕ) : 0 < expr.run .union distinct rows acc ↔ 0 < acc ∨ 0 < expr.meaning rows := by
  induction expr generalizing distinct rows acc with
  | select single arms =>
    simp only [run, meaning, armsTotal_eq, apply, add_nat, capIf_pos]
    cases single with
    | false =>
      simp only [runArms_false, Bool.false_or]
      have := capIf_pos distinct (acc + rows [] 0)
      omega
    | true =>
      cases arms with
      | zero =>
        simp only [runArms_zero, capIf_pos, armsRest]
        omega
      | succ arms =>
        simp only [runArms_true, Bool.true_or, capIf_true_nat]
        omega
  | setOperation option left right ihLeft ihRight =>
    simp only [unionOnly, Bool.and_eq_true, Bool.or_eq_true, beq_iff_eq] at hexpr
    obtain ⟨⟨hoption, hleft⟩, hright⟩ := hexpr
    have hkind : option.setOperation = .union := by
      rcases hoption with rfl | rfl <;> rfl
    have hmeaning : 0 < (setOperation option left right).meaning rows ↔
        0 < left.meaning rows.left ∨ 0 < right.meaning rows.right := by
      rcases hoption with rfl | rfl <;>
        simp only [meaning, SetOption.meaning, add_nat, distinct_nat] <;>
        omega
    rw [run, hkind, ihRight hright, ihLeft hleft, hmeaning, or_assoc]

theorem run_endsDistinct_le {distinct : Bool} (hunion : expr.unionOnly = true)
    (hends : expr.endsDistinct distinct = true) (rows : LeafRows ℕ)
    (acc : ℕ) : expr.run .union distinct rows acc ≤ 1 := by
  induction expr generalizing distinct rows acc with
  | select single arms =>
    simp only [run, apply]
    cases arms with
    | zero =>
      have hsingle : (single || distinct) = true := by
        simpa [endsDistinct] using hends
      simp [runArms_zero, hsingle]
    | succ arms =>
      have hsingle : single = true := by simpa [endsDistinct] using hends
      subst hsingle
      simp [runArms_true]
  | setOperation option left right _ ihRight =>
    simp only [unionOnly, Bool.and_eq_true, Bool.or_eq_true, beq_iff_eq] at hunion
    obtain ⟨⟨hoption, _⟩, hright⟩ := hunion
    have hkind : option.setOperation = .union := by
      rcases hoption with rfl | rfl <;> rfl
    rw [run, hkind]
    exact ihRight hright hends rows.right _

/-- Intersecting step by step. -/
theorem run_intersectOnly (hexpr : expr.intersectOnly = true) (distinct : Bool) (rows : LeafRows ℕ)
    (acc : ℕ) : expr.run .intersect distinct rows acc =
    capIf distinct (min acc (expr.meaning rows)) := by
  induction expr generalizing distinct rows acc with
  | select single arms =>
    simp only [intersectOnly, beq_iff_eq] at hexpr
    subst hexpr
    simp only [run, runArms_zero, meaning, armsTotal, apply, inter_nat]
    cases single <;> cases distinct <;> simp [capIf_nat] <;> omega
  | setOperation option left right ihLeft ihRight =>
    have hright : ∀ {single : Bool} {arms : Nat},
        right = select single arms → right.isOnePlan = true → arms = 0 := by
      intro single arms heq hone
      subst heq
      simpa [isOnePlan] using hone
    cases option with
        try simp only [intersectOnly, Bool.and_eq_true] at hexpr
    | union | unionAll => simp at hexpr
    | intersect | intersectAll =>
      simp only [run, SetOption.setOperation, isDistinct, meaning, SetOption.meaning,
        ihLeft hexpr.1, ihRight hexpr.2, Bool.or_true, Bool.or_false, capIf_false, capIf_true_nat,
        distinct_nat, inter_nat]
      cases distinct <;> simp only [capIf_false, capIf_true_nat] <;> omega
    | except =>
      cases right with
      | setOperation _ _ _ => simp [isOnePlan] at hexpr
      | select single arms =>
        obtain rfl := hright rfl hexpr.1
        simp only [run, SetOption.setOperation, isDistinct, meaning, SetOption.meaning,
          ihLeft hexpr.2, Bool.or_true, runArms_zero, apply, capIf_true_nat,
          armsTotal, distinct_nat, sub_nat]
        cases distinct <;> cases single <;>
          simp only [capIf_false, capIf_true_nat] <;> omega
    | exceptAll =>
      cases right with
      | setOperation _ _ _ => simp [isOnePlan] at hexpr
      | select single arms =>
        obtain rfl := hright rfl hexpr.1.1
        have hle := meaning_le_one hexpr.2 rows.left
        simp only [run, SetOption.setOperation, isDistinct, meaning, SetOption.meaning,
          ihLeft hexpr.1.2, Bool.or_false, runArms_zero, apply, armsTotal, sub_nat]
        cases distinct <;> cases single <;>
          simp only [capIf_false, capIf_true_nat] <;> omega

/-- The right operand of an EXCEPT is one step or it is refused. -/
theorem run_except_onePlan (hexpr : expr.isOnePlan = true) (distinct : Bool) (rows : LeafRows ℕ)
    (acc : ℕ) : expr.run .except distinct rows acc =
    capIf (expr.atMostOnce || distinct) acc - rows [] 0 ∧
    expr.meaning rows = capIf expr.atMostOnce (rows [] 0) := by
  cases expr with
  | setOperation _ _ _ => simp [isOnePlan] at hexpr
  | select single arms =>
    simp only [isOnePlan, beq_iff_eq] at hexpr
    subst hexpr
    exact ⟨rfl, rfl⟩

/-- The classification is sound. -/
theorem run_agrees (expr : SetExpr) (force : Bool) (rows : LeafRows ℕ) :
    (expr.countsAgree force = true → expr.run .notSet force rows 0 = expr.meaning rows) ∧
    (expr.rowsAgree force = true →
    (0 < expr.run .notSet force rows 0 ↔ 0 < expr.meaning rows)) := by
  induction expr generalizing force rows with
  | select single arms =>
    simp only [countsAgree, Bool.or_eq_true, Bool.not_eq_true', run, meaning,
      armsTotal_eq, apply, capIf_pos]
    cases single with
    | false =>
      simp only [runArms_false, Bool.false_or, Bool.false_eq_true, false_or, capIf_false]
      have hpos := capIf_pos force (rows [] 0)
      refine ⟨?_, by omega⟩
      intro hforce
      subst hforce
      rfl
    | true =>
      simp only [Bool.true_or, capIf_true_nat]
      cases arms with
      | zero =>
        simp only [runArms_zero, armsRest]
        omega
      | succ arms =>
        simp only [runArms_true]
        omega
  | setOperation option left right ihLeft ihRight =>
    cases option <;>
      simp only [countsAgree, rowsAgree, Bool.and_eq_true, run, SetOption.setOperation,
        isDistinct, Bool.or_true, Bool.or_false, meaning, SetOption.meaning,
        distinct_nat, add_nat, sub_nat, inter_nat]
    case union =>
      have hleft := (ihLeft true rows.left).2
      have hpos : ∀ h : right.unionOnly = true, _ :=
        fun h => run_unionOnly_pos h true rows.right (left.run .notSet true rows.left 0)
      constructor
      · rintro ⟨⟨hrows, hunion⟩, hends⟩
        have hle := run_endsDistinct_le hunion hends rows.right (left.run .notSet true rows.left 0)
        have := hpos hunion
        have := hleft hrows
        omega
      · rintro ⟨hrows, hunion⟩
        have := hpos hunion
        have := hleft hrows
        omega
    case unionAll =>
      have hleft := ihLeft force rows.left
      constructor
      · rintro ⟨hcounts, hadds⟩
        rw [run_addsAll hadds, hleft.1 hcounts]
      · rintro ⟨hrows, hunion⟩
        rw [run_unionOnly_pos hunion, hleft.2 hrows]
        omega
    case except =>
      have hleft := (ihLeft true rows.left).2
      have hone : left.rowsAgree true = true ∧ right.isOnePlan = true →
          right.run .except true rows.right (left.run .notSet true rows.left 0) =
          min 1 (left.meaning rows.left) - right.meaning rows.right := by
        rintro ⟨hrows, hone⟩
        obtain ⟨hrun, hmeaning⟩ := run_except_onePlan hone true rows.right
          (left.run .notSet true rows.left 0)
        have := hleft hrows
        rw [hrun, hmeaning, Bool.or_true, capIf_true_nat]
        cases right.atMostOnce <;>
          simp only [capIf_false, capIf_true_nat] <;> omega
      exact ⟨hone, fun h => by rw [hone h]⟩
    case exceptAll =>
      have hleft := ihLeft force rows.left
      have hone : right.isOnePlan = true ∧ (if right.atMostOnce = true then
            left.rowsAgree force && left.atMostOnce
          else left.countsAgree force) = true →
          right.run .except false rows.right (left.run .notSet force rows.left 0) =
            left.meaning rows.left - right.meaning rows.right := by
        rintro ⟨hone, hside⟩
        obtain ⟨hrun, hmeaning⟩ := run_except_onePlan hone false rows.right
          (left.run .notSet force rows.left 0)
        rw [hrun, hmeaning, Bool.or_false]
        cases honce : right.atMostOnce with
        | false =>
          simp only [honce, Bool.false_eq_true, ↓reduceIte] at hside
          simp [capIf_false, hleft.1 hside]
        | true =>
          simp only [honce, ↓reduceIte, Bool.and_eq_true] at hside
          have := hleft.2 hside.1
          have := meaning_le_one hside.2 rows.left
          simp only [capIf_true_nat]
          omega
      exact ⟨hone, fun h => by rw [hone h]⟩
    case intersect =>
      have hleft := (ihLeft true rows.left).2
      have hinter : left.rowsAgree true = true ∧ right.intersectOnly = true →
          right.run .intersect true rows.right (left.run .notSet true rows.left 0) =
          min 1 (min (left.meaning rows.left) (right.meaning rows.right)) := by
        rintro ⟨hrows, hright⟩
        have := hleft hrows
        rw [run_intersectOnly hright, capIf_true_nat]
        omega
      exact ⟨hinter, fun h => by rw [hinter h]⟩
    case intersectAll =>
      have hleft := ihLeft force rows.left
      constructor
      · rintro ⟨hright, hside⟩
        rw [run_intersectOnly hright, capIf_false]
        cases honce : right.atMostOnce with
        | false =>
          simp only [honce, Bool.false_eq_true, ↓reduceIte] at hside
          rw [hleft.1 hside]
        | true =>
          simp only [honce, ↓reduceIte] at hside
          have := hleft.2 hside
          have := meaning_le_one honce rows.right
          omega
      · rintro ⟨hrows, hright⟩
        have := hleft.2 hrows
        rw [run_intersectOnly hright, capIf_false]
        omega

end Sufficiency

end SetExpr

end Octo
