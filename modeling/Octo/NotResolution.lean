/-
When the disjunctive normal form of a WHERE has the truth value of the WHERE.
The only leaves at stake are those that cannot be inverted; each of them needs
a NOT of its own exactly when it stands below an odd number of NOTs.
-/
import Octo.NormalForm
import Octo.ReadOnce

namespace Octo

open LogicalPlan List

/-- The run reaches no assert and the result has the truth value of the
input. -/
def PreservesTruth (tree : LogicalPlan) : Prop :=
  ∃ result, lpMakeNormalDisjunctiveForm tree = some result ∧
    ∀ assign, truth assign result = truth assign tree

/-- The leaves that cannot be inverted, each with the number of NOTs above it
and whether its own parent is one of them. -/
def opaqueLeaves (nots : Nat) (underNot : Bool) : LogicalPlan → List (Nat × Bool)
  | .node type operand0 operand1 =>
    if type = .booleanAnd ∨ type = .booleanOr then
      opaqueLeaves nots false operand0 ++ opaqueLeaves nots false operand1
    else if type = .booleanNot then opaqueLeaves (nots + 1) true operand0
    else if isOpaque (.node type operand0 operand1) then [(nots, underNot)]
    else []
  | leaf => if isOpaque leaf then [(nots, underNot)] else []

/-- A leaf that cannot be inverted has a NOT of its own exactly when the
number of NOTs above it is odd. -/
def NotsResolved (tree : LogicalPlan) : Prop :=
  ∀ leaf ∈ opaqueLeaves 0 false tree, leaf.1 % 2 = 1 ↔ leaf.2 = true

/-- The tree with every leaf inverted that keeps a NOT of its own below an
even number of NOTs. -/
def invertKept (nots : Nat) : LogicalPlan → LogicalPlan
  | .node type operand0 operand1 =>
    if type = .booleanAnd ∨ type = .booleanOr then
      .node type (invertKept nots operand0) (invertKept nots operand1)
    else if type = .booleanNot then
      if isOpaque operand0 then
        if nots % 2 = 1 then .node type (.node type operand0 .null) .null
        else .node type operand0 .null
      else .node type (invertKept (nots + 1) operand0) operand1
    else .node type operand0 operand1
  | leaf => leaf

/-- The atoms of a tree: a comparison and its complement are one atom. -/
def atoms : LogicalPlan → List LogicalPlan
  | .node type operand0 operand1 =>
    if type = .booleanAnd ∨ type = .booleanOr then
      atoms operand0 ++ atoms operand1
    else if type = .booleanNot then atoms operand0
    else [.node ((complementOf type).getD type) operand0 operand1]
  | leaf => [leaf]

variable {leaf tree : LogicalPlan} {inverse type : LPActionType}

/-- The pass preserves truth exactly when the pushed NOTs do. -/
theorem preservesTruth_iff_pushedTruth (htree : BooleanWhere tree) :
    PreservesTruth tree ↔ invertible false tree = true ∧
      ∀ assign, pushedTruth assign false tree = truth assign tree := by
  have hsome := normalDisjunctiveForm_isSome tree.size htree (Nat.le_refl _)
  constructor
  · rintro ⟨result, hrun, htruth⟩
    have hspec := normalDisjunctiveForm_spec tree.size htree hrun
    rw [lpMakeNormalDisjunctiveForm] at hrun
    rw [hrun] at hsome
    refine ⟨hsome.symm, ?_⟩
    intro assign
    rw [← hspec.2 assign, htruth assign]
  · rintro ⟨hinvertible, htruth⟩
    rw [hinvertible] at hsome
    obtain ⟨result, hrun⟩ := Option.isSome_iff_exists.mp hsome
    refine ⟨result, hrun, ?_⟩
    intro assign
    rw [(normalDisjunctiveForm_spec tree.size htree hrun).2 assign, htruth assign]

variable (nots : Nat) (underNot : Bool) (left right : LogicalPlan)

theorem opaqueLeaves_comparison (htype : invertComparison type = some inverse) :
    opaqueLeaves nots underNot (.node type left right) = [] := by
  cases type <;> simp [invertComparison] at htype <;>
    simp [opaqueLeaves, isOpaque]

theorem opaqueLeaves_of_isOpaque (hleaf : isOpaque leaf = true) :
    opaqueLeaves nots underNot leaf = [(nots, underNot)] := by
  cases leaf <;> simp only [isOpaque, Bool.false_eq_true] at hleaf <;>
    try simp [opaqueLeaves, isOpaque]
  simp only [Bool.or_eq_true, beq_iff_eq] at hleaf
  rcases hleaf with (((rfl | rfl) | rfl) | rfl) | rfl <;> simp

/-- The flag only reaches a leaf that is itself the operand of the NOT. -/
theorem opaqueLeaves_of_not_isOpaque (htree : isOpaque tree = false) :
    opaqueLeaves nots true tree = opaqueLeaves nots false tree := by
  cases tree <;> simp_all [opaqueLeaves]

theorem invertKept_comparison (htype : invertComparison type = some inverse) :
    invertKept nots (.node type left right) = .node type left right := by
  cases type <;> simp [invertComparison] at htype <;> simp [invertKept]

theorem invertKept_of_isOpaque (hleaf : isOpaque leaf = true) : invertKept nots leaf = leaf := by
  cases leaf <;> simp only [isOpaque, Bool.false_eq_true] at hleaf <;>
    try simp [invertKept]
  simp only [Bool.or_eq_true, beq_iff_eq] at hleaf
  rcases hleaf with (((rfl | rfl) | rfl) | rfl) | rfl <;> simp

variable (assign : LogicalPlan → Bool)

/-- The pass inverts the leaves of `invertKept` and nothing else. -/
theorem pushedTruth_eq_invertKept (htree : BooleanWhere tree) :
    ∀ nots, pushedTruth assign (decide (nots % 2 = 1)) tree =
    xor (decide (nots % 2 = 1)) (truth assign (invertKept nots tree)) := by
  induction htree with
  | and _ _ ihLeft ihRight | or _ _ ihLeft ihRight =>
    intro nots
    simp only [pushedTruth, invertKept, ihLeft nots, ihRight nots, true_or, or_true,
      reduceCtorEq, ↓reduceIte, truth_and, truth_or]
    by_cases hodd : nots % 2 = 1 <;> simp [hodd]
  | @not operand hoperand ih =>
    intro nots
    have hkeeps := hoperand.keepsNot_eq_isOpaque
    cases hbare : isOpaque operand with
    | true =>
      by_cases hodd : nots % 2 = 1 <;>
        simp [pushedTruth, invertKept, hkeeps, hbare, hodd]
    | false =>
      rw [hbare] at hkeeps
      have hnext := ih (nots + 1)
      rw [decide_odd_succ] at hnext
      simp [pushedTruth, invertKept, hkeeps, hbare, hnext]
  | comparison htype left right =>
    intro nots
    rw [pushedTruth_comparison assign _ left right htype,
      invertKept_comparison nots left right htype]
  | bare hleaf =>
    intro nots
    rw [pushedTruth_of_isOpaque assign _ hleaf, invertKept_of_isOpaque nots hleaf]

/-- The leaves that reach the assert are those below an odd number of NOTs
without a NOT of their own. -/
theorem invertible_iff_opaqueLeaves (htree : BooleanWhere tree) :
    ∀ nots, invertible (decide (nots % 2 = 1)) tree = true ↔ ∀ leaf ∈ opaqueLeaves nots false tree,
    leaf.1 % 2 = 1 → leaf.2 = true := by
  induction htree with
  | and _ _ ihLeft ihRight | or _ _ ihLeft ihRight =>
    intro nots
    simp only [invertible, opaqueLeaves, true_or, or_true, ↓reduceIte,
      Bool.and_eq_true, ihLeft nots, ihRight nots, forall_mem_append]
  | @not operand hoperand ih =>
    intro nots
    have hkeeps := hoperand.keepsNot_eq_isOpaque
    cases hbare : isOpaque operand with
    | true =>
      rw [hbare] at hkeeps
      simp [invertible, opaqueLeaves, hkeeps, opaqueLeaves_of_isOpaque (nots + 1) true hbare]
    | false =>
      rw [hbare] at hkeeps
      have hnext := ih (nots + 1)
      rw [decide_odd_succ] at hnext
      simp [invertible, opaqueLeaves, hkeeps, hnext, opaqueLeaves_of_not_isOpaque (nots + 1) hbare]
  | comparison htype left right =>
    intro nots
    simp [invertible_comparison _ left right htype,
      opaqueLeaves_comparison nots false left right htype]
  | bare hleaf =>
    intro nots
    simp [invertible_of_isOpaque _ hleaf, opaqueLeaves_of_isOpaque nots false hleaf]

/-- Where the NOTs are resolved, no leaf is inverted. -/
theorem truth_invertKept_of_resolved (htree : BooleanWhere tree) :
    ∀ nots, (∀ leaf ∈ opaqueLeaves nots false tree, leaf.2 = true → leaf.1 % 2 = 1) →
    truth assign (invertKept nots tree) = truth assign tree := by
  induction htree with
  | and _ _ ihLeft ihRight | or _ _ ihLeft ihRight =>
    intro nots hleaves
    simp only [opaqueLeaves, true_or, or_true, ↓reduceIte, forall_mem_append] at hleaves
    simp [invertKept, ihLeft nots hleaves.1, ihRight nots hleaves.2]
  | @not operand hoperand ih =>
    intro nots hleaves
    simp only [opaqueLeaves, reduceCtorEq, or_self, ↓reduceIte] at hleaves
    cases hbare : isOpaque operand with
    | true =>
      rw [opaqueLeaves_of_isOpaque (nots + 1) true hbare] at hleaves
      have heven : nots % 2 ≠ 1 := by
        have := hleaves (nots + 1, true) (by simp) rfl
        omega
      simp [invertKept, hbare, heven]
    | false =>
      rw [opaqueLeaves_of_not_isOpaque (nots + 1) hbare] at hleaves
      simp [invertKept, hbare, ih (nots + 1) hleaves]
  | comparison htype left right =>
    intro nots _
    rw [invertKept_comparison nots left right htype]
  | bare hleaf =>
    intro nots _
    rw [invertKept_of_isOpaque nots hleaf]

theorem atoms_comparison (htype : invertComparison type = some inverse) :
    ∃ atom, atoms (.node type left right) = [atom] ∧ ∃ flip, ∀ assign,
    truth assign (.node type left right) = xor flip (assign atom) := by
  refine ⟨.node ((complementOf type).getD type) left right, ?_, (complementOf type).isSome, ?_⟩ <;>
    cases type <;> simp [invertComparison] at htype <;>
    simp [atoms, truth, complementOf]

theorem atoms_of_isOpaque (hleaf : isOpaque leaf = true) : atoms leaf = [leaf] := by
  cases leaf <;> simp only [isOpaque, Bool.false_eq_true] at hleaf <;>
    try simp [atoms]
  simp only [Bool.or_eq_true, beq_iff_eq] at hleaf
  rcases hleaf with (((rfl | rfl) | rfl) | rfl) | rfl <;> simp [complementOf]

/-- The truth value of a tree, with or without its kept leaves inverted, is a
function of the tree's atoms. -/
theorem dependsOn_truth_invertKept (htree : BooleanWhere tree) :
    DependsOn (fun assign => truth assign tree) {a | a ∈ atoms tree} ∧
    ∀ nots, DependsOn (fun assign => truth assign (invertKept nots tree)) {a | a ∈ atoms tree} := by
  induction htree with
  | and _ _ ihLeft ihRight | or _ _ ihLeft ihRight =>
    constructor
    · intro ρ σ hsame
      simp only [Set.mem_ofPred_eq, atoms, true_or, or_true, ↓reduceIte, mem_append] at hsame
      have hl := ihLeft.1 fun a ha => hsame a (.inl ha)
      have hr := ihRight.1 fun a ha => hsame a (.inr ha)
      simp_all
    · intro nots ρ σ hsame
      simp only [Set.mem_ofPred_eq, atoms, true_or, or_true, ↓reduceIte, mem_append] at hsame
      have hl := ihLeft.2 nots fun a ha => hsame a (.inl ha)
      have hr := ihRight.2 nots fun a ha => hsame a (.inr ha)
      simp_all [invertKept]
  | @not operand _ ih =>
    constructor
    · intro ρ σ hsame
      have ho := ih.1 hsame
      simp_all
    · intro nots ρ σ hsame
      have ho := ih.1 hsame
      have hk := ih.2 (nots + 1) hsame
      by_cases hbare : isOpaque operand = true <;>
        by_cases hodd : nots % 2 = 1 <;> simp_all [invertKept]
  | comparison htype left right =>
    obtain ⟨atom, hatoms, flip, htruth⟩ := atoms_comparison left right htype
    simp only [invertKept_comparison _ left right htype, htruth, hatoms]
    refine ⟨?_, fun _ => ?_⟩ <;> intro ρ σ hsame <;>
      simp [hsame atom (by simp)]
  | bare hleaf =>
    simp only [invertKept_of_isOpaque _ hleaf, truth_of_isOpaque _ hleaf, atoms_of_isOpaque hleaf]
    refine ⟨?_, fun _ => ?_⟩ <;> intro ρ σ hsame <;>
      exact hsame _ (by simp)

theorem disjoint_atoms {left right : LogicalPlan} (hnodup : (atoms left ++ atoms right).Nodup) :
    Disjoint {a | a ∈ atoms left} {a | a ∈ atoms right} := by
  rw [Set.disjoint_left]
  intro a hleft hright
  exact disjoint_of_nodup_append hnodup hleft hright

/-- A tree over distinct atoms takes both truth values. -/
theorem exists_truth_eq (htree : BooleanWhere tree) :
    (atoms tree).Nodup → ∀ value, ∃ assign, truth assign tree = value := by
  induction htree with
  | and hleft hright ihLeft ihRight | or hleft hright ihLeft ihRight =>
    intro hnodup value
    obtain ⟨ρ, hρ⟩ := ihLeft hnodup.of_append_left value
    obtain ⟨σ, hσ⟩ := ihRight hnodup.of_append_right value
    obtain ⟨τ, hl, hr⟩ := ReadOnce.exists_both (disjoint_atoms hnodup)
      (dependsOn_truth_invertKept hleft).1 (dependsOn_truth_invertKept hright).1 ρ σ
    exact ⟨τ, by simp_all⟩
  | @not operand _ ih =>
    intro hnodup value
    obtain ⟨ρ, hρ⟩ := ih hnodup (!value)
    exact ⟨ρ, by simp [hρ]⟩
  | comparison htype left right =>
    intro _ value
    obtain ⟨atom, _, flip, htruth⟩ := atoms_comparison left right htype
    exact ⟨fun _ => xor flip value, by simp [htruth]⟩
  | bare hleaf =>
    intro _ value
    exact ⟨fun _ => value, truth_of_isOpaque _ hleaf⟩

/-- Over distinct atoms an inverted leaf changes the truth value under some
assignment. -/
theorem resolved_of_truth_invertKept (htree : BooleanWhere tree) : ∀ nots, (atoms tree).Nodup →
    (∀ assign, truth assign (invertKept nots tree) = truth assign tree) →
    ∀ leaf ∈ opaqueLeaves nots false tree, leaf.2 = true → leaf.1 % 2 = 1 := by
  induction htree with
  | @and left right hleft hright ihLeft ihRight | @or left right hleft hright ihLeft ihRight =>
    intro nots hnodup htruth
    obtain ⟨hl, hlKept⟩ := dependsOn_truth_invertKept hleft
    obtain ⟨hr, hrKept⟩ := dependsOn_truth_invertKept hright
    have hlValues := exists_truth_eq hleft hnodup.of_append_left
    have hrValues := exists_truth_eq hright hnodup.of_append_right
    -- one side is held at the value that lets the other side through
    have hsides : (∀ assign, truth assign (invertKept nots left) = truth assign left) ∧
        ∀ assign, truth assign (invertKept nots right) = truth assign right := by
      first
        | exact ReadOnce.and_cancel (disjoint_atoms hnodup) (hlKept nots) hl (hrKept nots) hr
            (hlValues true) (hrValues true) htruth
        | exact ReadOnce.or_cancel (disjoint_atoms hnodup) (hlKept nots) hl (hrKept nots) hr
            (hlValues false) (hrValues false) htruth
    simp only [opaqueLeaves, true_or, or_true, ↓reduceIte, forall_mem_append]
    exact ⟨ihLeft nots hnodup.of_append_left hsides.1, ihRight nots hnodup.of_append_right hsides.2⟩
  | @not operand hoperand ih =>
    intro nots hnodup htruth
    simp only [opaqueLeaves, reduceCtorEq, or_self, ↓reduceIte]
    cases hbare : isOpaque operand with
    | true =>
      rw [opaqueLeaves_of_isOpaque (nots + 1) true hbare]
      have hodd : nots % 2 ≠ 1 := by
        intro hodd
        have h := htruth fun _ => true
        simp [invertKept, hbare, hodd] at h
      intro leaf hleaf _
      simp only [mem_singleton] at hleaf
      subst hleaf
      omega
    | false =>
      rw [opaqueLeaves_of_not_isOpaque (nots + 1) hbare]
      apply ih (nots + 1) hnodup
      intro assign
      simpa [invertKept, hbare] using htruth assign
  | comparison htype left right =>
    intro nots _ _
    simp [opaqueLeaves_comparison nots false left right htype]
  | bare hleaf =>
    intro nots _ _
    simp [opaqueLeaves_of_isOpaque nots false hleaf]

/-- The normal form keeps the truth value exactly when no leaf reaches an
assert and the leaves it inverts do not matter.  Resolved NOTs are enough for
that, and over distinct atoms nothing less is. -/
theorem lpMakeNormalDisjunctiveForm_preserves_truth_iff {tree : LogicalPlan}
    (htree : BooleanWhere tree) : (NotsResolved tree → PreservesTruth tree) ∧
    ((atoms tree).Nodup → (PreservesTruth tree ↔ NotsResolved tree)) ∧
    (PreservesTruth tree ↔ (∀ leaf ∈ opaqueLeaves 0 false tree, leaf.1 % 2 = 1 → leaf.2 = true) ∧
    ∀ assign, truth assign (invertKept 0 tree) = truth assign tree) := by
  have hiff : PreservesTruth tree ↔
      (∀ leaf ∈ opaqueLeaves 0 false tree, leaf.1 % 2 = 1 → leaf.2 = true) ∧
      ∀ assign, truth assign (invertKept 0 tree) = truth assign tree := by
    rw [preservesTruth_iff_pushedTruth htree, ← invertible_iff_opaqueLeaves htree 0]
    have hpushed := fun assign => pushedTruth_eq_invertKept assign htree 0
    simp only [Nat.zero_mod, Nat.zero_ne_one, decide_false, Bool.false_xor] at hpushed
    simp [hpushed]
  have hresolved : NotsResolved tree → PreservesTruth tree := by
    intro hnots
    rw [hiff]
    refine ⟨fun leaf hleaf => (hnots leaf hleaf).mp, ?_⟩
    intro assign
    exact truth_invertKept_of_resolved assign htree 0 fun leaf hleaf => (hnots leaf hleaf).mpr
  refine ⟨hresolved, ?_, hiff⟩
  intro hnodup
  refine ⟨?_, hresolved⟩
  intro hpreserves
  obtain ⟨hasserts, htruth⟩ := hiff.mp hpreserves
  intro leaf hleaf
  exact ⟨hasserts leaf hleaf, resolved_of_truth_invertKept htree 0 hnodup htruth leaf hleaf⟩

namespace NormalFormWitness

def literal (text : String) : LogicalPlan :=
  .value ⟨.stringLiteral, text⟩

/-- `'a' LIKE '%b'` -/
def like : LogicalPlan :=
  .node .booleanRegexSensitive (literal "a") (literal ".*b")

/-- `'a' = 'b'` -/
def equals : LogicalPlan := .node .booleanEquals (literal "a") (literal "b")

def negate (operand : LogicalPlan) : LogicalPlan :=
  .node .booleanNot operand .null

theorem like_boolean : BooleanWhere like := .bare (by decide)

theorem equals_boolean : BooleanWhere equals :=
  .comparison rfl (literal "a") (literal "b")

end NormalFormWitness

open NormalFormWitness

/-- `NOT ('a' = 'b' AND NOT 'a' LIKE '%b')` has an unresolved leaf, and
`NOT 'a' = 'b' AND NOT 'a' LIKE '%b'` has none. -/
theorem preserves_truth_of_not_like :
    NotsResolved (.node .booleanAnd (negate equals) (negate like)) ∧
      PreservesTruth (.node .booleanAnd (negate equals) (negate like)) ∧
      ¬PreservesTruth (negate (.node .booleanAnd equals (negate like))) := by
  have hresolved : NotsResolved (.node .booleanAnd (negate equals) (negate like)) := by
    unfold NotsResolved
    decide
  have htree : BooleanWhere (negate (.node .booleanAnd equals (negate like))) :=
    .not (.and equals_boolean (.not like_boolean))
  refine ⟨hresolved, ?_, ?_⟩
  · exact (lpMakeNormalDisjunctiveForm_preserves_truth_iff
      (.and (.not equals_boolean) (.not like_boolean))).1 hresolved
  · rw [(lpMakeNormalDisjunctiveForm_preserves_truth_iff htree).2.1 (by decide)]
    unfold NotsResolved
    decide

/-- `NOT NOT 'a' LIKE '%b'` loses one NOT, and
`NOT ('a' = 'b' OR 'a' LIKE '%b')` ends in an assert. -/
theorem not_over_regex_fails : BooleanWhere (negate (negate like)) ∧
      lpMakeNormalDisjunctiveForm (negate (negate like)) = some (negate like) ∧
      ¬PreservesTruth (negate (negate like)) ∧
      BooleanWhere (negate (.node .booleanOr equals like)) ∧ lpMakeNormalDisjunctiveForm
      (negate (.node .booleanOr equals like)) = none := by
  refine ⟨.not (.not like_boolean), by decide, ?_,
    .not (.or equals_boolean like_boolean), by decide⟩
  rintro ⟨result, hrun, htruth⟩
  cases hrun
  exact absurd (htruth fun _ => true) (by decide)

end Octo
