/-
The disjunctive normal form of a WHERE.  `lp_make_normal_disjunctive_form`
pushes NOT to the leaves and distributes AND over the right spines of its two
operands.
-/
import Octo.ApplyNot

namespace Octo

open LogicalPlan List

/-- The clauses a loop over `l` or `r` visits: each step notes whether the
cell is an OR and which clause it contributes. -/
def spine : LogicalPlan → List (Bool × LogicalPlan)
  | .null => []
  | .node type operand0 operand1 =>
    if type = .booleanOr then (true, operand0) :: spine operand1
    else [(false, .node type operand0 operand1)]
  | clause => [(false, clause)]

/-- The conjunctions of the nested loops over both spines, each with the
`boolean_type` of its iteration. -/
def series (left right : LogicalPlan) : List (LPActionType × LogicalPlan) :=
  (spine left).flatMap fun l => (spine right).map fun r =>
    (if l.1 || r.1 then .booleanOr else .booleanAnd, .node .booleanAnd l.2 r.2)

/-- Link the conjunctions.  The cell after an iteration is allocated with that
iteration's `boolean_type`; the last item is promoted into its parent. -/
def linkSeries (cell : LPActionType) : List (LPActionType × LogicalPlan) → LogicalPlan
  | [] => .null
  | [(_, lp)] => lp
  | (next, lp) :: item :: rest =>
    .node cell lp (linkSeries next (item :: rest))

/-- The series of ANDs that replaces an AND whose operands are in normal
form. -/
def distributeAnd (left right : LogicalPlan) : LogicalPlan :=
  match series left right with
  | [] => .null
  | (type, lp) :: rest => linkSeries type ((type, lp) :: rest)

/-- The part of `lp_make_normal_disjunctive_form` after `lp_apply_not`. -/
def normalizeOperands (normalize : LogicalPlan → Option LogicalPlan) :
    LogicalPlan → Option LogicalPlan
  | .node type operand0 operand1 =>
    if type ≠ .booleanAnd ∧ type ≠ .booleanOr then
      some (.node type operand0 operand1)
    else do
      let left ← normalize operand0
      let right ← normalize operand1
      if type ≠ .booleanAnd then some (.node type left right)
      else some (distributeAnd left right)
  | root => some root

/-- `lp_make_normal_disjunctive_form` with a bound on its recursion depth. -/
def normalDisjunctiveForm : Nat → LogicalPlan → Option LogicalPlan
  | 0, _ => none
  | _ + 1, .null => some .null
  | fuel + 1, root => do
    let root ← lpApplyNot root 0
    normalizeOperands (normalDisjunctiveForm fuel) root

/-- `lp_make_normal_disjunctive_form`.  Every recursive call is on an operand,
so the size of the tree bounds the depth. -/
def lpMakeNormalDisjunctiveForm (root : LogicalPlan) : Option LogicalPlan :=
  normalDisjunctiveForm root.size root

/-- A tree of ANDs and ORs over given leaves. -/
inductive AndOr (Leaf : LogicalPlan → Prop) : LogicalPlan → Prop
  | leaf {tree : LogicalPlan} (hleaf : Leaf tree) : AndOr Leaf tree
  | and {left right : LogicalPlan} (hleft : AndOr Leaf left)
      (hright : AndOr Leaf right) : AndOr Leaf (.node .booleanAnd left right)
  | or {left right : LogicalPlan} (hleft : AndOr Leaf left)
      (hright : AndOr Leaf right) : AndOr Leaf (.node .booleanOr left right)

/-- What the loops of the pass treat as one clause. -/
structure Clause (tree : LogicalPlan) : Prop where
  ne_null : tree ≠ .null
  ne_and : tree.type ≠ .booleanAnd
  ne_or : tree.type ≠ .booleanOr

/-- The number of conjunctions in the disjunction a tree stands for. -/
def disjuncts : LogicalPlan → Nat
  | .node type operand0 operand1 =>
    if type = .booleanAnd then disjuncts operand0 * disjuncts operand1
    else if type = .booleanOr then disjuncts operand0 + disjuncts operand1
    else 1
  | _ => 1

/-- No OR is reached from the root through ANDs. -/
def orFree : LogicalPlan → Bool
  | .node type operand0 operand1 =>
    if type = .booleanOr then false
    else if type = .booleanAnd then orFree operand0 && orFree operand1
    else true
  | _ => true

@[simp] theorem disjuncts_and (left right : LogicalPlan) :
    disjuncts (.node .booleanAnd left right) = disjuncts left * disjuncts right := by
  simp [disjuncts]

@[simp] theorem disjuncts_or (left right : LogicalPlan) : disjuncts (.node .booleanOr left right) =
    disjuncts left + disjuncts right := by
  simp [disjuncts]

@[simp] theorem orFree_and (left right : LogicalPlan) :
    orFree (.node .booleanAnd left right) = (orFree left && orFree right) := by
  simp [orFree]

variable {leaf left right root tree : LogicalPlan}

theorem Clause.orFree (htree : Clause tree) : orFree tree = true := by
  have hand := htree.ne_and
  have hor := htree.ne_or
  cases tree <;> simp_all [Octo.orFree, type]

theorem spine_or (left right : LogicalPlan) :
    spine (.node .booleanOr left right) = (true, left) :: spine right := by
  simp [spine]

theorem spine_of_type_ne (hnull : tree ≠ .null)
    (htype : tree.type ≠ .booleanOr) : spine tree = [(false, tree)] := by
  cases tree <;> simp_all [spine, type]

/-- A loop over the right spine of a tree visits its disjuncts; every cell but
the last is an OR. -/
structure SpineOf (Leaf : LogicalPlan → Prop) (tree : LogicalPlan)
    (cells : List (Bool × LogicalPlan)) : Prop where
  ne_nil : cells ≠ []
  andOr : ∀ cell ∈ cells, AndOr Leaf cell.2
  dropLast : ∀ cell ∈ cells.dropLast, cell.1 = true
  truth_eq : ∀ assign, truth assign tree = cells.any fun cell => truth assign cell.2
  disjuncts_eq : disjuncts tree = (cells.map fun cell => disjuncts cell.2).sum

section Distribution

variable {Leaf : LogicalPlan → Prop}

theorem SpineOf.single (htree : AndOr Leaf tree) : SpineOf Leaf tree [(false, tree)] := by
  refine ⟨by simp, ?_, by simp, by simp, by simp⟩
  intro cell hcell
  simp only [mem_singleton] at hcell
  subst hcell
  exact htree

theorem SpineOf.or {left right : LogicalPlan} {cells : List (Bool × LogicalPlan)}
    (hleft : AndOr Leaf left) (hright : SpineOf Leaf right cells) :
    SpineOf Leaf (.node .booleanOr left right) ((true, left) :: cells) := by
  refine ⟨by simp, ?_, ?_, ?_, ?_⟩
  · intro cell hcell
    rcases mem_cons.mp hcell with rfl | hcell
    · exact hleft
    · exact hright.andOr cell hcell
  · intro cell hcell
    rw [dropLast_cons_of_ne_nil hright.ne_nil] at hcell
    rcases mem_cons.mp hcell with rfl | hcell
    · rfl
    · exact hright.dropLast cell hcell
  · intro assign
    simp [hright.truth_eq assign]
  · simp [hright.disjuncts_eq]

theorem any_series (assign : LogicalPlan → Bool) (left right : LogicalPlan) :
    ((series left right).any fun item => truth assign item.2) =
      (((spine left).any fun cell => truth assign cell.2) &&
        (spine right).any fun cell => truth assign cell.2) := by
  rw [Bool.eq_iff_iff]
  simp only [series, any_eq_true, mem_flatMap, mem_map, Bool.and_eq_true]
  constructor
  · rintro ⟨item, ⟨l, hl, r, hr, rfl⟩, htruth⟩
    simp only [truth_and, Bool.and_eq_true] at htruth
    exact ⟨⟨l, hl, htruth.1⟩, ⟨r, hr, htruth.2⟩⟩
  · rintro ⟨⟨l, hl, hltruth⟩, ⟨r, hr, hrtruth⟩⟩
    exact ⟨_, ⟨l, hl, r, hr, rfl⟩, by simp [hltruth, hrtruth]⟩

theorem sum_disjuncts_series (left right : LogicalPlan) :
    ((series left right).map fun item => disjuncts item.2).sum =
      ((spine left).map fun cell => disjuncts cell.2).sum *
        ((spine right).map fun cell => disjuncts cell.2).sum := by
  unfold series
  induction spine left with
  | nil => simp
  | cons head tail ih =>
    simp only [flatMap_cons, map_append, sum_append, ih, map_cons, sum_cons, map_map, Nat.add_mul]
    congr 1
    rw [← sum_map_mul_left]
    simp [Function.comp_def]

/-- Only the last iteration of the nested loops has neither cell an OR. -/
theorem flatMap_dropLast_booleanOr {right : List (Bool × LogicalPlan)} (hright : right ≠ [])
    (hrightOr : ∀ cell ∈ right.dropLast, cell.1 = true) (left : List (Bool × LogicalPlan))
    (hleftOr : ∀ cell ∈ left.dropLast, cell.1 = true) :
    ∀ item ∈ (left.flatMap fun l => right.map fun r =>
        ((if l.1 || r.1 then LPActionType.booleanOr else .booleanAnd),
          node .booleanAnd l.2 r.2)).dropLast,
      item.1 = .booleanOr := by
  induction left with
  | nil => simp
  | cons head tail ih =>
    cases tail with
    | nil =>
      intro item hitem
      simp only [flatMap_cons, flatMap_nil, append_nil, ← map_dropLast, mem_map] at hitem
      obtain ⟨r, hr, rfl⟩ := hitem
      simp [hrightOr r hr]
    | cons second rest =>
      have hne : ((second :: rest).flatMap fun l => right.map fun r =>
          ((if l.1 || r.1 then LPActionType.booleanOr else .booleanAnd),
            node .booleanAnd l.2 r.2)) ≠ [] := by
        simp [hright]
      have hhead : head.1 = true := hleftOr head (by simp)
      intro item hitem
      rw [flatMap_cons, dropLast_append_of_ne_nil hne] at hitem
      rcases mem_append.mp hitem with hitem | hitem
      · simp only [mem_map] at hitem
        obtain ⟨r, _, rfl⟩ := hitem
        simp [hhead]
      · apply ih _ item hitem
        intro cell hcell
        apply hleftOr cell
        exact mem_cons_of_mem head hcell

/-- A linked series is the disjunction of its items. -/
theorem linkSeries_spec (cell : LPActionType) (items : List (LPActionType × LogicalPlan))
    (hne : items ≠ []) (hcell : items.length = 1 ∨ cell = .booleanOr)
    (hitems : ∀ item ∈ items.dropLast, item.1 = .booleanOr)
    (handOr : ∀ item ∈ items, AndOr Leaf item.2) : AndOr Leaf (linkSeries cell items) ∧
    (∀ assign, truth assign (linkSeries cell items) = items.any fun item => truth assign item.2) ∧
    disjuncts (linkSeries cell items) = (items.map fun item => disjuncts item.2).sum := by
  induction items generalizing cell with
  | nil => exact absurd rfl hne
  | cons head tail ih =>
    cases tail with
    | nil => exact ⟨handOr head (by simp), by simp [linkSeries], by simp [linkSeries]⟩
    | cons second rest =>
      have hor : cell = .booleanOr := by simpa using hcell
      have hnext : head.1 = .booleanOr := hitems head (by simp)
      have htail := ih head.1 (by simp) (.inr hnext) (by
          intro item hitem
          apply hitems item
          exact mem_cons_of_mem head hitem)
        (fun item hitem => handOr item (mem_cons_of_mem head hitem))
      subst hor
      refine ⟨.or (handOr head (by simp)) htail.1, ?_, ?_⟩
      · intro assign
        simp [linkSeries, truth_or, htail.2.1 assign, any_cons]
      · simp [linkSeries, disjuncts_or, htail.2.2, map_cons, sum_cons]

variable (hclause : ∀ {tree : LogicalPlan}, Leaf tree → Clause tree)
include hclause

theorem AndOr.ne_null (htree : AndOr Leaf tree) : tree ≠ .null := by
  cases htree with
  | leaf hleaf => exact (hclause hleaf).ne_null
  | and _ _ => simp
  | or _ _ => simp

theorem AndOr.spineOf (htree : AndOr Leaf tree) : SpineOf Leaf tree (spine tree) := by
  induction htree with
  | leaf hleaf =>
    have hc := hclause hleaf
    rw [spine_of_type_ne hc.ne_null hc.ne_or]
    exact .single (.leaf hleaf)
  | and hleft hright _ _ =>
    exact .single (.and hleft hright)
  | or hleft _ _ ih =>
    exact ih.or hleft

theorem AndOr.type_ne_or_of_length (htree : AndOr Leaf tree) (hlength : (spine tree).length = 1) :
    tree.type ≠ .booleanOr := by
  cases htree with
  | leaf hleaf => exact (hclause hleaf).ne_or
  | and _ _ => simp [type]
  | or _ hright =>
    have hne := (hright.spineOf hclause).ne_nil
    rw [spine_or, length_cons] at hlength
    exact absurd (length_eq_zero_iff.mp (by omega)) hne

/-- What the nested loops build from two operands in normal form. -/
structure Distributed (Leaf : LogicalPlan → Prop) (left right result : LogicalPlan) : Prop where
  andOr : AndOr Leaf result
  truth_eq : ∀ assign, truth assign result = (truth assign left && truth assign right)
  disjuncts_eq : disjuncts result = disjuncts left * disjuncts right
  of_type_ne : result.type ≠ .booleanOr → result = .node .booleanAnd left right ∧
    left.type ≠ .booleanOr ∧ right.type ≠ .booleanOr

theorem distributeAnd_distributed {left right : LogicalPlan} (hleft : AndOr Leaf left)
    (hright : AndOr Leaf right) : Distributed Leaf left right (distributeAnd left right) := by
  have hl := hleft.spineOf hclause
  have hr := hright.spineOf hclause
  have hlen : (series left right).length = (spine left).length * (spine right).length := by
    simp [series, length_flatMap]
  have hlast : ∀ item ∈ (series left right).dropLast, item.1 = .booleanOr :=
    flatMap_dropLast_booleanOr hr.ne_nil hr.dropLast (spine left) hl.dropLast
  have handOr : ∀ item ∈ series left right, AndOr Leaf item.2 := by
    intro item hitem
    simp only [series, mem_flatMap, mem_map] at hitem
    obtain ⟨l, hlmem, r, hrmem, rfl⟩ := hitem
    exact .and (hl.andOr l hlmem) (hr.andOr r hrmem)
  have hany := fun assign => any_series assign left right
  have hsum := sum_disjuncts_series left right
  have hlpos := length_pos_iff.mpr hl.ne_nil
  have hrpos := length_pos_iff.mpr hr.ne_nil
  cases hseries : series left right with
  | nil =>
    rw [hseries, length_nil] at hlen
    have := Nat.mul_pos hlpos hrpos
    omega
  | cons head tail =>
    rw [hseries] at hlast handOr hany hsum
    have hcell : (head :: tail).length = 1 ∨ head.1 = .booleanOr := by
      cases tail with
      | nil => exact .inl rfl
      | cons second rest => exact .inr (hlast head (by simp))
    have hlink := linkSeries_spec head.1 (head :: tail) (by simp) hcell hlast handOr
    have heq : distributeAnd left right = linkSeries head.1 (head :: tail) := by
      simp [distributeAnd, hseries]
    refine ⟨heq ▸ hlink.1, ?_, ?_, ?_⟩
    · intro assign
      rw [heq, hlink.2.1, hany, ← hl.truth_eq, ← hr.truth_eq]
    · rw [heq, hlink.2.2, hsum, ← hl.disjuncts_eq, ← hr.disjuncts_eq]
    · intro htype
      cases tail with
      | cons second rest =>
        rw [heq, linkSeries, hlast head (by simp)] at htype
        exact absurd rfl htype
      | nil =>
        rw [hseries, length_singleton] at hlen
        have hlne := hleft.type_ne_or_of_length hclause (Nat.eq_one_of_mul_eq_one_right hlen.symm)
        have hrne := hright.type_ne_or_of_length hclause (Nat.eq_one_of_mul_eq_one_left hlen.symm)
        refine ⟨?_, hlne, hrne⟩
        rw [distributeAnd, series, spine_of_type_ne (hleft.ne_null hclause) hlne,
          spine_of_type_ne (hright.ne_null hclause) hrne]
        rfl

end Distribution

def BooleanLeaf (tree : LogicalPlan) : Prop :=
  BooleanWhere tree ∧ Clause tree

theorem BooleanWhere.ne_null (htree : BooleanWhere tree) : tree ≠ .null := by
  intro heq
  subst heq
  cases htree with
  | bare hleaf => simp [isOpaque] at hleaf

theorem BooleanWhere.andOr (htree : BooleanWhere tree) : AndOr BooleanLeaf tree := by
  induction htree with
  | and _ _ ihLeft ihRight => exact .and ihLeft ihRight
  | or _ _ ihLeft ihRight => exact .or ihLeft ihRight
  | not hoperand _ =>
    exact .leaf ⟨.not hoperand, by simp, by simp [type], by simp [type]⟩
  | comparison htype left right =>
    refine .leaf ⟨.comparison htype left right, by simp, ?_, ?_⟩ <;>
      intro heq <;> simp only [type] at heq <;> subst heq <;>
      simp [invertComparison] at htype
  | bare hleaf =>
    have hkeeps := keepsNot_of_isOpaque hleaf
    refine .leaf ⟨.bare hleaf, (BooleanWhere.bare hleaf).ne_null, ?_, ?_⟩ <;>
      intro heq <;> rw [heq] at hkeeps <;>
      exact absurd hkeeps (by decide)

theorem AndOr.booleanWhere (htree : AndOr BooleanLeaf tree) : BooleanWhere tree := by
  induction htree with
  | leaf hleaf => exact hleaf.1
  | and _ _ ihLeft ihRight => exact .and ihLeft ihRight
  | or _ _ ihLeft ihRight => exact .or ihLeft ihRight

variable (fuel : Nat)

theorem normalDisjunctiveForm_succ (root : LogicalPlan) :
    normalDisjunctiveForm (fuel + 1) root = (lpApplyNot root 0).bind
        (normalizeOperands (normalDisjunctiveForm fuel)) := by
  cases root <;> rfl

theorem normalDisjunctiveForm_and
    (hpush : lpApplyNot root 0 = some (.node .booleanAnd left right)) :
    normalDisjunctiveForm (fuel + 1) root = (normalDisjunctiveForm fuel left).bind fun l =>
        (normalDisjunctiveForm fuel right).bind fun r =>
          some (distributeAnd l r) := by
  rw [normalDisjunctiveForm_succ, hpush]
  simp [normalizeOperands]

theorem normalDisjunctiveForm_or (hpush : lpApplyNot root 0 = some (.node .booleanOr left right)) :
    normalDisjunctiveForm (fuel + 1) root = (normalDisjunctiveForm fuel left).bind fun l =>
        (normalDisjunctiveForm fuel right).bind fun r =>
          some (.node .booleanOr l r) := by
  rw [normalDisjunctiveForm_succ, hpush]
  simp [normalizeOperands]

theorem normalDisjunctiveForm_leaf (hpush : lpApplyNot root 0 = some leaf)
    (hand : leaf.type ≠ .booleanAnd) (hor : leaf.type ≠ .booleanOr) :
    normalDisjunctiveForm (fuel + 1) root = some leaf := by
  rw [normalDisjunctiveForm_succ, hpush]
  cases leaf <;> simp_all [normalizeOperands, type]

theorem normalDisjunctiveForm_none (hpush : lpApplyNot root 0 = none) :
    normalDisjunctiveForm (fuel + 1) root = none := by
  rw [normalDisjunctiveForm_succ, hpush]
  rfl

/-- Where the pass stops: a comparison, a bare leaf, or a kept NOT. -/
theorem pushedTruth_of_settled (assign : LogicalPlan → Bool) (hleaf : BooleanWhere leaf)
    (hsettled : Settled leaf) (hand : leaf.type ≠ .booleanAnd) (hor : leaf.type ≠ .booleanOr) :
    pushedTruth assign false leaf = truth assign leaf := by
  cases hleaf with
  | and _ _ => exact absurd rfl hand
  | or _ _ => exact absurd rfl hor
  | not _ => simp [pushedTruth, hsettled _ _ rfl]
  | comparison htype left right =>
    simp [pushedTruth_comparison assign false left right htype]
  | bare hleaf => simp [pushedTruth_of_isOpaque assign false hleaf]

theorem invertible_of_settled (hleaf : BooleanWhere leaf)
    (hsettled : Settled leaf) (hand : leaf.type ≠ .booleanAnd)
    (hor : leaf.type ≠ .booleanOr) : invertible false leaf = true := by
  cases hleaf with
  | and _ _ => exact absurd rfl hand
  | or _ _ => exact absurd rfl hor
  | not _ => simp [invertible, hsettled _ _ rfl]
  | comparison htype left right =>
    exact invertible_comparison false left right htype
  | bare hleaf => exact invertible_of_isOpaque false hleaf

/-- The shapes of a pushed tree that the normal form distinguishes. -/
theorem BooleanWhere.andOrLeaf (htree : BooleanWhere tree) :
    (∃ left right, tree = .node .booleanAnd left right ∧ BooleanWhere left ∧ BooleanWhere right) ∨
    (∃ left right, tree = .node .booleanOr left right ∧ BooleanWhere left ∧ BooleanWhere right) ∨
    (tree.type ≠ .booleanAnd ∧ tree.type ≠ .booleanOr) := by
  cases htree.andOr with
  | and hleft hright =>
    exact .inl ⟨_, _, rfl, hleft.booleanWhere, hright.booleanWhere⟩
  | or hleft hright =>
    exact .inr (.inl ⟨_, _, rfl, hleft.booleanWhere, hright.booleanWhere⟩)
  | leaf hleaf => exact .inr (.inr ⟨hleaf.2.ne_and, hleaf.2.ne_or⟩)

/-- What the normal form of a tree is when the run ends: its truth value is
the one the pushed NOTs give. -/
theorem normalDisjunctiveForm_spec {result : LogicalPlan} (htree : BooleanWhere tree)
    (hrun : normalDisjunctiveForm fuel tree = some result) : BooleanWhere result ∧
    ∀ assign, truth assign result = pushedTruth assign false tree := by
  induction fuel generalizing tree result with
  | zero => simp [normalDisjunctiveForm] at hrun
  | succ fuel ih =>
    cases hpush : lpApplyNot tree 0 with
    | none =>
      rw [normalDisjunctiveForm_none fuel hpush] at hrun
      cases hrun
    | some root =>
      have hpushed : Pushed false tree root := by
        simpa using lpApplyNot_some htree hpush
      rcases hpushed.boolean.andOrLeaf with
        ⟨left, right, rfl, hleft, hright⟩ |
        ⟨left, right, rfl, hleft, hright⟩ | ⟨hand, hor⟩
      on_goal 3 =>
        rw [normalDisjunctiveForm_leaf fuel hpush hand hor] at hrun
        cases hrun
        refine ⟨hpushed.boolean, ?_⟩
        intro assign
        rw [← hpushed.truth_eq assign, pushedTruth_of_settled assign
          hpushed.boolean hpushed.settled hand hor]
      all_goals
        first
          | rw [normalDisjunctiveForm_and fuel hpush] at hrun
          | rw [normalDisjunctiveForm_or fuel hpush] at hrun
        simp only [Option.bind_eq_some_iff] at hrun
        obtain ⟨l, hl, r, hr, ⟨⟩⟩ := hrun
        obtain ⟨hlBool, hlTruth⟩ := ih hleft hl
        obtain ⟨hrBool, hrTruth⟩ := ih hright hr
      · have hdist := distributeAnd_distributed (fun hleaf => hleaf.2) hlBool.andOr hrBool.andOr
        refine ⟨hdist.andOr.booleanWhere, ?_⟩
        intro assign
        rw [← hpushed.truth_eq assign, hdist.truth_eq, hlTruth, hrTruth]
        simp [pushedTruth]
      · refine ⟨.or hlBool hrBool, ?_⟩
        intro assign
        rw [← hpushed.truth_eq assign, truth_or, hlTruth, hrTruth]
        simp [pushedTruth]

/-- With enough fuel the run ends exactly when no assert is reached. -/
theorem normalDisjunctiveForm_isSome (htree : BooleanWhere tree) (hfuel : tree.size ≤ fuel) :
    (normalDisjunctiveForm fuel tree).isSome = invertible false tree := by
  induction fuel generalizing tree with
  | zero =>
    have hpos : 0 < tree.size := by cases tree <;> simp [size]
    omega
  | succ fuel ih =>
    cases hpush : lpApplyNot tree 0 with
    | none =>
      have hinv : invertible false tree = false := by
        simpa using lpApplyNot_none htree hpush
      rw [normalDisjunctiveForm_none fuel hpush, hinv]
      rfl
    | some root =>
      have hpushed : Pushed false tree root := by
        simpa using lpApplyNot_some htree hpush
      have hsize := hpushed.size_le
      rw [← hpushed.invertible_eq]
      rcases hpushed.boolean.andOrLeaf with
        ⟨left, right, rfl, hleft, hright⟩ |
        ⟨left, right, rfl, hleft, hright⟩ | ⟨hand, hor⟩
      on_goal 3 =>
        rw [normalDisjunctiveForm_leaf fuel hpush hand hor,
          invertible_of_settled hpushed.boolean hpushed.settled hand hor]
        rfl
      -- an AND and an OR end when both operands do
      all_goals
        simp only [size] at hsize
        have hl := ih hleft (by omega)
        have hr := ih hright (by omega)
        first
          | rw [normalDisjunctiveForm_and fuel hpush]
          | rw [normalDisjunctiveForm_or fuel hpush]
        simp only [invertible, true_or, or_true, ↓reduceIte, ← hl, ← hr]
        cases normalDisjunctiveForm fuel left <;>
          cases normalDisjunctiveForm fuel right <;> rfl

/-- Leaves that `lp_apply_not` leaves alone. -/
theorem lpApplyNot_of_type_ne
    (htree : tree.type ≠ .booleanNot) : lpApplyNot tree 0 = some tree := by
  cases tree <;> simp_all [lpApplyNot, type]

/-- What the pass makes of a tree without NOTs. -/
structure Normalised (Leaf : LogicalPlan → Prop) (tree result : LogicalPlan) : Prop where
  andOr : AndOr Leaf result
  truth_eq : ∀ assign, truth assign result = truth assign tree
  disjuncts_eq : disjuncts result = disjuncts tree
  orFree : result.type ≠ .booleanOr → orFree result = true

/-- One pass over a tree without NOTs ends, and an OR that it leaves behind
is below an OR at the root. -/
theorem normalDisjunctiveForm_andOr {Leaf : LogicalPlan → Prop}
    (hclause : ∀ {tree : LogicalPlan}, Leaf tree → Clause tree)
    (hnot : ∀ {tree : LogicalPlan}, Leaf tree → tree.type ≠ .booleanNot) (fuel : Nat)
    (htree : AndOr Leaf tree) (hfuel : tree.size ≤ fuel) :
    ∃ result, normalDisjunctiveForm fuel tree = some result ∧ Normalised Leaf tree result := by
  induction fuel generalizing tree with
  | zero =>
    have hpos : 0 < tree.size := by cases tree <;> simp [size]
    omega
  | succ fuel ih =>
    cases htree with
    | leaf hleaf =>
      have hc := hclause hleaf
      refine ⟨tree, ?_, .leaf hleaf, fun _ => rfl, rfl, fun _ => hc.orFree⟩
      exact normalDisjunctiveForm_leaf fuel (lpApplyNot_of_type_ne (hnot hleaf)) hc.ne_and hc.ne_or
    | @and left right hleft hright =>
      simp only [size] at hfuel
      obtain ⟨l, hl, hlNormal⟩ := ih hleft (by omega)
      obtain ⟨r, hr, hrNormal⟩ := ih hright (by omega)
      have hdist := distributeAnd_distributed hclause hlNormal.andOr hrNormal.andOr
      refine ⟨distributeAnd l r, ?_, hdist.andOr, ?_, ?_, ?_⟩
      · rw [normalDisjunctiveForm_and fuel
          (lpApplyNot_of_type_ne (by simp [type])), hl, hr]
        rfl
      · intro assign
        rw [hdist.truth_eq, hlNormal.truth_eq, hrNormal.truth_eq, truth_and]
      · rw [hdist.disjuncts_eq, hlNormal.disjuncts_eq, hrNormal.disjuncts_eq, disjuncts_and]
      · intro htype
        obtain ⟨heq, hlne, hrne⟩ := hdist.of_type_ne htype
        rw [heq, orFree_and, hlNormal.orFree hlne, hrNormal.orFree hrne]
        rfl
    | @or left right hleft hright =>
      simp only [size] at hfuel
      obtain ⟨l, hl, hlNormal⟩ := ih hleft (by omega)
      obtain ⟨r, hr, hrNormal⟩ := ih hright (by omega)
      refine ⟨.node .booleanOr l r, ?_, .or hlNormal.andOr hrNormal.andOr,
        ?_, ?_, fun htype => absurd rfl htype⟩
      · rw [normalDisjunctiveForm_or fuel
          (lpApplyNot_of_type_ne (by simp [type])), hl, hr]
        rfl
      · intro assign
        rw [truth_or, truth_or, hlNormal.truth_eq, hrNormal.truth_eq]
      · rw [disjuncts_or, disjuncts_or, hlNormal.disjuncts_eq, hrNormal.disjuncts_eq]

end Octo
