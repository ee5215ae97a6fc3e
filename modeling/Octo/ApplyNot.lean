/-
Pushing NOT down a boolean tree.  `lp_apply_not` counts the NOTs above a node
and, below an odd number of them, inverts the node in place.  A run that
reaches an `assert(FALSE)` has no result.
-/
import Octo.LogicalPlan
import Mathlib.Tactic

namespace Octo

open LogicalPlan Option

/-- The comparison with the opposite truth value, where the switch of
`lp_apply_not` has one. -/
def invertComparison : LPActionType → Option LPActionType
  | .booleanEquals => some .booleanNotEquals
  | .booleanNotEquals => some .booleanEquals
  | .booleanLessThan => some .booleanGreaterThanOrEquals
  | .booleanGreaterThan => some .booleanLessThanOrEquals
  | .booleanLessThanOrEquals => some .booleanGreaterThan
  | .booleanGreaterThanOrEquals => some .booleanLessThan
  | .booleanIn => some .booleanNotIn
  | .booleanNotIn => some .booleanIn
  | _ => none

/-- Operands below which `lp_apply_not` does not recurse: regex calls, IS, and
anything like a function call or a column reference. -/
def keepsNot (type : LPActionType) : Bool :=
  type == .booleanRegexSensitive || type == .booleanRegexInsensitive ||
    type == .booleanIs || decide (type.ctorIdx < LPActionType.addition.ctorIdx)

/-- `lp_apply_not`.  The switch has no case for regex calls and for anything
that is not a boolean operation; both end in `assert(FALSE)`. -/
def lpApplyNot : LogicalPlan → Nat → Option LogicalPlan
  | .node type operand0 operand1, count =>
    if type = .booleanNot then
      if keepsNot operand0.type then some (.node type operand0 operand1)
      -- This will trim the NOT from the expression
      else lpApplyNot operand0 (count + 1)
    else if count % 2 = 1 then
      if type = .booleanOr then do
        let left ← lpApplyNot operand0 count
        let right ← lpApplyNot operand1 count
        some (.node .booleanAnd left right)
      else if type = .booleanAnd then do
        let left ← lpApplyNot operand0 count
        let right ← lpApplyNot operand1 count
        some (.node .booleanOr left right)
      else
        (invertComparison type).map (.node · operand0 operand1)
    else some (.node type operand0 operand1)
  | root, count => if count % 2 = 1 then none else some root

/-- Leaves that the pass cannot invert: regex calls, IS tests, and bare
columns, functions, CASE expressions and values. -/
def isOpaque : LogicalPlan → Bool
  | .value _ => true
  | .columnAlias _ => true
  | .derivedColumn _ _ => true
  | .node type _ _ =>
    type == .booleanRegexSensitive || type == .booleanRegexInsensitive ||
      type == .booleanIs || type == .functionCall || type == .caseNode
  | _ => false

/-- The boolean trees a WHERE, an ON or a searched CASE can hold. -/
inductive BooleanWhere : LogicalPlan → Prop
  | and {left right : LogicalPlan} (hleft : BooleanWhere left) (hright : BooleanWhere right) :
      BooleanWhere (.node .booleanAnd left right)
  | or {left right : LogicalPlan} (hleft : BooleanWhere left) (hright : BooleanWhere right) :
      BooleanWhere (.node .booleanOr left right)
  | not {operand : LogicalPlan} (hoperand : BooleanWhere operand) :
      BooleanWhere (.node .booleanNot operand .null)
  | comparison {type inverse : LPActionType} (htype : invertComparison type = some inverse)
      (left right : LogicalPlan) : BooleanWhere (.node type left right)
  | bare {leaf : LogicalPlan} (hleaf : isOpaque leaf = true) : BooleanWhere leaf

def complementOf : LPActionType → Option LPActionType
  | .booleanNotEquals => some .booleanEquals
  | .booleanGreaterThanOrEquals => some .booleanLessThan
  | .booleanLessThanOrEquals => some .booleanGreaterThan
  | .booleanNotIn => some .booleanIn
  | _ => none

/-- The truth value of a tree under an assignment to its atoms, in which =/<>,
</>=, >/<= and IN/NOT IN are complements. -/
def truth (assign : LogicalPlan → Bool) : LogicalPlan → Bool
  | .node type operand0 operand1 =>
    if type = .booleanAnd then truth assign operand0 && truth assign operand1
    else if type = .booleanOr then
      truth assign operand0 || truth assign operand1
    else if type = .booleanNot then !truth assign operand0
    else match complementOf type with
      | some base => !assign (.node base operand0 operand1)
      | none => assign (.node type operand0 operand1)
  | leaf => assign leaf

variable (assign : LogicalPlan → Bool) (left right : LogicalPlan)

@[simp] theorem truth_and :
    truth assign (.node .booleanAnd left right) = (truth assign left && truth assign right) := by
  simp [truth]

@[simp] theorem truth_or :
    truth assign (.node .booleanOr left right) = (truth assign left || truth assign right) := by
  simp [truth]

@[simp] theorem truth_not (operand rest : LogicalPlan) :
    truth assign (.node .booleanNot operand rest) = !truth assign operand := by
  simp [truth]

variable {inverse type : LPActionType} {leaf tree : LogicalPlan}

theorem truth_invertComparison (htype : invertComparison type = some inverse) :
    truth assign (.node inverse left right) = !truth assign (.node type left right) := by
  cases type <;> simp [invertComparison] at htype <;> subst htype <;>
    simp [truth, complementOf]

theorem truth_of_isOpaque (hleaf : isOpaque leaf = true) : truth assign leaf = assign leaf := by
  cases leaf <;> simp [isOpaque] at hleaf <;> try rfl
  rcases hleaf with (((rfl | rfl) | rfl) | rfl) | rfl <;>
    simp [truth, complementOf]

theorem keepsNot_of_isOpaque (hleaf : isOpaque leaf = true) : keepsNot leaf.type = true := by
  cases leaf <;> simp [isOpaque] at hleaf <;> try rfl
  rcases hleaf with (((rfl | rfl) | rfl) | rfl) | rfl <;> rfl

theorem keepsNot_of_invertComparison (htype : invertComparison type = some inverse) :
    keepsNot type = false := by
  cases type <;> simp [invertComparison] at htype <;> rfl

theorem isOpaque_comparison
    (htype : invertComparison type = some inverse) : isOpaque (.node type left right) = false := by
  cases type <;> simp [invertComparison] at htype <;> rfl

theorem BooleanWhere.keepsNot_eq_isOpaque
    (htree : BooleanWhere tree) : keepsNot tree.type = isOpaque tree := by
  cases htree with
  | and _ _ => rfl
  | or _ _ => rfl
  | not _ => rfl
  | comparison htype left right =>
    rw [isOpaque_comparison left right htype]
    exact keepsNot_of_invertComparison htype
  | bare hleaf => rw [hleaf, keepsNot_of_isOpaque hleaf]

/-- No NOT can be trimmed from the root. -/
def Settled (root : LogicalPlan) : Prop :=
  ∀ operand rest, root = .node .booleanNot operand rest → keepsNot operand.type = true

/-- Met under an odd or even number of NOTs, the pass does not reach a leaf
that it cannot invert. -/
def invertible : Bool → LogicalPlan → Bool
  | odd, .node type operand0 operand1 =>
    if type = .booleanAnd ∨ type = .booleanOr then
      invertible odd operand0 && invertible odd operand1
    else if type = .booleanNot then
      keepsNot operand0.type || invertible (!odd) operand0
    else !(odd && isOpaque (.node type operand0 operand1))
  | odd, leaf => !(odd && isOpaque leaf)

/-- The truth value the pass gives to a tree that it meets under an odd or
even number of NOTs. -/
def pushedTruth (assign : LogicalPlan → Bool) : Bool → LogicalPlan → Bool
  | odd, .node type operand0 operand1 =>
    if type = .booleanAnd then
      if odd then
        pushedTruth assign odd operand0 || pushedTruth assign odd operand1
      else pushedTruth assign odd operand0 && pushedTruth assign odd operand1
    else if type = .booleanOr then
      if odd then
        pushedTruth assign odd operand0 && pushedTruth assign odd operand1
      else pushedTruth assign odd operand0 || pushedTruth assign odd operand1
    else if type = .booleanNot then
      if keepsNot operand0.type then !truth assign operand0
      else pushedTruth assign (!odd) operand0
    else xor odd (truth assign (.node type operand0 operand1))
  | odd, leaf => xor odd (truth assign leaf)

variable (odd : Bool)

theorem pushedTruth_comparison (left right : LogicalPlan)
    (htype : invertComparison type = some inverse) :
    pushedTruth assign odd (.node type left right) =
      xor odd (truth assign (.node type left right)) := by
  cases type <;> simp [invertComparison] at htype <;> simp [pushedTruth]

theorem pushedTruth_of_isOpaque (hleaf : isOpaque leaf = true) :
    pushedTruth assign odd leaf = xor odd (truth assign leaf) := by
  cases leaf <;> simp [isOpaque] at hleaf <;> try rfl
  rcases hleaf with (((rfl | rfl) | rfl) | rfl) | rfl <;> simp [pushedTruth]

theorem invertible_comparison (left right : LogicalPlan)
    (htype : invertComparison type = some inverse) :
    invertible odd (.node type left right) = true := by
  cases type <;> simp [invertComparison] at htype <;>
    simp [invertible, isOpaque]

theorem invertible_of_isOpaque (hleaf : isOpaque leaf = true) : invertible odd leaf = !odd := by
  cases leaf <;> simp only [isOpaque, Bool.false_eq_true] at hleaf <;>
    try simp [invertible, isOpaque]
  simp only [Bool.or_eq_true, beq_iff_eq] at hleaf
  rcases hleaf with (((rfl | rfl) | rfl) | rfl) | rfl <;> simp

variable (count : Nat)

theorem lpApplyNot_comparison
    (htype : invertComparison type = some inverse) : lpApplyNot (.node type left right) count =
    some (.node (if count % 2 = 1 then inverse else type) left right) := by
  cases type <;> simp [invertComparison] at htype <;> subst htype <;>
    simp only [lpApplyNot, invertComparison] <;> split_ifs <;> simp_all

theorem lpApplyNot_of_isOpaque (hleaf : isOpaque leaf = true) :
    lpApplyNot leaf count = if count % 2 = 1 then none else some leaf := by
  cases leaf <;> simp [isOpaque] at hleaf <;> try rfl
  rcases hleaf with (((rfl | rfl) | rfl) | rfl) | rfl <;>
    simp [lpApplyNot, invertComparison]

/-- What `lp_apply_not` has done to a tree it met under an odd or even number
of NOTs. -/
structure Pushed (odd : Bool) (tree result : LogicalPlan) : Prop where
  boolean : BooleanWhere result
  settled : Settled result
  size_le : result.size ≤ tree.size
  invertible_eq : invertible false result = invertible odd tree
  truth_eq : ∀ assign,
    pushedTruth assign false result = pushedTruth assign odd tree

theorem Pushed.refl (htree : BooleanWhere tree)
    (hsettled : Settled tree) : Pushed false tree tree :=
  ⟨htree, hsettled, Nat.le_refl _, rfl, fun _ => rfl⟩

theorem settled_of_type_ne {root : LogicalPlan}
    (hroot : root.type ≠ .booleanNot) : Settled root := by
  intro operand rest heq
  subst heq
  exact absurd rfl hroot

section

variable {left right newLeft newRight : LogicalPlan} (hleft : Pushed true left newLeft)
  (hright : Pushed true right newRight)
include hleft hright

/-- An AND becomes an OR and an OR an AND. -/
theorem Pushed.dual {op dual : LPActionType} (hdual : op = .booleanAnd ∧ dual = .booleanOr ∨
    op = .booleanOr ∧ dual = .booleanAnd) :
    Pushed true (.node op left right) (.node dual newLeft newRight) where
  boolean := by
    rcases hdual with ⟨-, rfl⟩ | ⟨-, rfl⟩
    · exact .or hleft.boolean hright.boolean
    · exact .and hleft.boolean hright.boolean
  settled := settled_of_type_ne (by rcases hdual with ⟨-, rfl⟩ | ⟨-, rfl⟩ <;> simp [type])
  size_le := by
    have := hleft.size_le
    have := hright.size_le
    simp only [size]
    omega
  invertible_eq := by
    rcases hdual with ⟨rfl, rfl⟩ | ⟨rfl, rfl⟩ <;>
      simp [invertible, hleft.invertible_eq, hright.invertible_eq]
  truth_eq assign := by
    rcases hdual with ⟨rfl, rfl⟩ | ⟨rfl, rfl⟩ <;>
      simp [pushedTruth, hleft.truth_eq, hright.truth_eq]

end

/-- A trimmed NOT changes the parity under which its operand is met. -/
theorem Pushed.not {odd : Bool} {operand result : LogicalPlan}
    (hkeeps : keepsNot operand.type = false) (hoperand : Pushed (!odd) operand result) :
    Pushed odd (.node .booleanNot operand .null) result where
  boolean := hoperand.boolean
  settled := hoperand.settled
  size_le := by
    have := hoperand.size_le
    simp only [size]
    omega
  invertible_eq := by
    simp [invertible, hkeeps, hoperand.invertible_eq]
  truth_eq assign := by
    simp [pushedTruth, hkeeps, hoperand.truth_eq]

/-- A kept NOT is not touched, whatever the count. -/
theorem Pushed.keep {operand : LogicalPlan} (hoperand : BooleanWhere operand)
    (hkeeps : keepsNot operand.type = true) : Pushed odd (.node .booleanNot operand .null)
    (.node .booleanNot operand .null) where
  boolean := .not hoperand
  settled := by
    intro x y heq
    cases heq
    exact hkeeps
  size_le := Nat.le_refl _
  invertible_eq := by simp [invertible, hkeeps]
  truth_eq assign := by simp [pushedTruth, hkeeps]

theorem Pushed.comparison {type inverse : LPActionType}
    (htype : invertComparison type = some inverse) :
    Pushed true (.node type left right) (.node inverse left right) := by
  have hback : invertComparison inverse = some type := by
    cases type <;> simp [invertComparison] at htype <;> subst htype <;> rfl
  refine ⟨.comparison hback left right, ?_, Nat.le_refl _, ?_, ?_⟩
  · apply settled_of_type_ne
    cases type <;> simp [invertComparison] at htype <;> subst htype <;>
      simp [type]
  · rw [invertible_comparison _ left right hback, invertible_comparison _ left right htype]
  · intro assign
    rw [pushedTruth_comparison assign _ left right hback,
      pushedTruth_comparison assign _ left right htype,
      truth_invertComparison assign left right htype]
    simp

theorem lpApplyNot_and : lpApplyNot (.node .booleanAnd left right) count = if count % 2 = 1 then
        (lpApplyNot left count).bind fun l =>
          (lpApplyNot right count).bind fun r =>
            some (.node .booleanOr l r)
      else some (.node .booleanAnd left right) := by
  simp [lpApplyNot]

theorem lpApplyNot_or : lpApplyNot (.node .booleanOr left right) count = if count % 2 = 1 then
        (lpApplyNot left count).bind fun l =>
          (lpApplyNot right count).bind fun r =>
            some (.node .booleanAnd l r)
      else some (.node .booleanOr left right) := by
  simp [lpApplyNot]

theorem lpApplyNot_not (operand rest : LogicalPlan) (count : Nat) :
    lpApplyNot (.node .booleanNot operand rest) count =
      if keepsNot operand.type then some (.node .booleanNot operand rest)
      else lpApplyNot operand (count + 1) := by
  simp [lpApplyNot]

theorem decide_odd_succ :
    decide ((count + 1) % 2 = 1) = !decide (count % 2 = 1) := by
  rcases Nat.mod_two_eq_zero_or_one count with h | h <;> simp [Nat.add_mod, h]

theorem settled_of_isOpaque (hleaf : isOpaque leaf = true) : Settled leaf := by
  apply settled_of_type_ne
  intro htype
  have := keepsNot_of_isOpaque hleaf
  rw [htype] at this
  exact absurd this (by decide)

/-- A finished run of `lp_apply_not` has pushed the NOTs down as far as the
next even AND or OR. -/
theorem lpApplyNot_some (htree : BooleanWhere tree) : ∀ {count : Nat} {result : LogicalPlan},
    lpApplyNot tree count = some result → Pushed (decide (count % 2 = 1)) tree result := by
  induction htree with
  | @and left right hleft hright ihLeft ihRight | @or left right hleft hright ihLeft ihRight =>
    intro count result h
    simp only [lpApplyNot_and, lpApplyNot_or] at h
    by_cases hodd : count % 2 = 1
    · simp only [hodd, ↓reduceIte, bind_eq_some_iff] at h
      obtain ⟨l, hl, r, hr, ⟨⟩⟩ := h
      simpa [hodd] using Pushed.dual (by simpa [hodd] using ihLeft hl)
        (by simpa [hodd] using ihRight hr) (by simp)
    · simp only [hodd, ↓reduceIte, some.injEq] at h
      subst h
      simpa [hodd] using Pushed.refl (by constructor <;> assumption)
        (settled_of_type_ne (by simp [type]))
  | @not operand hoperand ih =>
    intro count result h
    rw [lpApplyNot_not] at h
    by_cases hkeeps : keepsNot operand.type = true
    · simp only [hkeeps, ↓reduceIte, some.injEq] at h
      subst h
      exact Pushed.keep _ hoperand hkeeps
    · simp only [hkeeps, Bool.false_eq_true, ↓reduceIte] at h
      have hpushed := ih h
      rw [decide_odd_succ] at hpushed
      exact Pushed.not (by simpa using hkeeps) hpushed
  | @comparison type inverse htype left right =>
    intro count result h
    rw [lpApplyNot_comparison left right count htype] at h
    by_cases hodd : count % 2 = 1
    · simp only [hodd, ↓reduceIte, some.injEq] at h
      subst h
      simpa [hodd] using Pushed.comparison left right htype
    · simp only [hodd, ↓reduceIte, some.injEq] at h
      subst h
      have hsettled : Settled (.node type left right) := by
        apply settled_of_type_ne
        cases type <;> simp [invertComparison] at htype <;>
          simp [type]
      simpa [hodd] using Pushed.refl (.comparison htype left right) hsettled
  | @bare leaf hleaf =>
    intro count result h
    rw [lpApplyNot_of_isOpaque count hleaf] at h
    by_cases hodd : count % 2 = 1
    · simp [hodd] at h
    · simp only [hodd, ↓reduceIte, some.injEq] at h
      subst h
      simpa [hodd] using Pushed.refl (.bare hleaf) (settled_of_isOpaque hleaf)

/-- A run of `lp_apply_not` that reaches an assert has met a leaf that cannot
be inverted. -/
theorem lpApplyNot_none (htree : BooleanWhere tree) :
    ∀ {count : Nat}, lpApplyNot tree count = none →
      invertible (decide (count % 2 = 1)) tree = false := by
  induction htree with
  | @and left right _ _ ihLeft ihRight | @or left right _ _ ihLeft ihRight =>
    intro count h
    simp only [lpApplyNot_and, lpApplyNot_or] at h
    by_cases hodd : count % 2 = 1
    · simp only [hodd, ↓reduceIte] at h
      cases hl : lpApplyNot left count with
      | none => simp [invertible, ihLeft hl]
      | some l =>
        cases hr : lpApplyNot right count with
        | none => simp [invertible, ihRight hr]
        | some r => simp [hl, hr] at h
    · simp [hodd] at h
  | @not operand hoperand ih =>
    intro count h
    rw [lpApplyNot_not] at h
    by_cases hkeeps : keepsNot operand.type = true
    · simp [hkeeps] at h
    · simp only [hkeeps, Bool.false_eq_true, ↓reduceIte] at h
      have hinv := ih h
      rw [decide_odd_succ] at hinv
      simp [invertible, hkeeps, hinv]
  | @comparison type inverse htype left right =>
    intro count h
    rw [lpApplyNot_comparison left right count htype] at h
    cases h
  | @bare leaf hleaf =>
    intro count h
    rw [lpApplyNot_of_isOpaque count hleaf] at h
    by_cases hodd : count % 2 = 1
    · simp [hodd, invertible_of_isOpaque true hleaf]
    · simp [hodd] at h

end Octo
