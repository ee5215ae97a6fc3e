/-
Splitting a plan at its ORs.  One pass of the normal form can leave ORs below
an AND, but each arm stands for fewer conjunctions than the WHERE it was split
off, so splitting and normalising again comes to an end.
-/
import Octo.OptimizePlan

namespace Octo

open LogicalPlan List

/-- A comparison; columns that it equates have ids the counter has given
out. -/
structure Comparison (counter : Nat) (tree : LogicalPlan) : Prop where
  comparison : ∃ type inverse left right,
    tree = .node type left right ∧ invertComparison type = some inverse
  below : ∀ left right, tree = .node .booleanEquals (.columnAlias left) (.columnAlias right) →
    left.tableAlias.uniqueId < counter ∧ right.tableAlias.uniqueId < counter

/-- No WHERE, or one built from AND and OR over comparisons. -/
def AndOrWhere (counter : Nat) (whereCond : LogicalPlan) : Prop :=
  whereCond = .null ∨ AndOr (Comparison counter) whereCond

mutual

/-- Plans whose WHEREs, also those of derived tables, use AND and OR only. -/
inductive Optimizable (counter : Nat) : LogicalPlan → Prop
  | insert {columns tableJoin whereCond orderBy : LogicalPlan}
      {keys : List SqlKey} {keywords : List OptionalKeyword} {output : SqlKey}
      (hwhere : AndOrWhere counter whereCond) (hjoin : keys = [] → tableJoin ≠ .null)
      (hsources : keys = [] → Sources counter tableJoin) :
      Optimizable counter (.insert columns tableJoin whereCond orderBy keys keywords output)
  | setOperation {option : SetOption} {plan0 plan1 : LogicalPlan}
      (hplan0 : Optimizable counter plan0) (hplan1 : Optimizable counter plan1) :
      Optimizable counter (.setOperation option plan0 plan1)

/-- The tables and derived tables of an LP_TABLE_JOIN. -/
inductive Sources (counter : Nat) : LogicalPlan → Prop
  | nil : Sources counter .null
  | table {next : LogicalPlan} (ref : SqlTableAlias) (hnext : Sources counter next) :
      Sources counter (.node .tableJoin (.table ref) next)
  | derived {plan next : LogicalPlan} (hplan : Optimizable counter plan)
      (hnext : Sources counter next) : Sources counter (.node .tableJoin plan next)

end

/-- `lp_get_select_where` -/
def selectWhere : LogicalPlan → LogicalPlan
  | .insert _ _ whereCond _ _ _ _ => whereCond
  | _ => .null

/-- The SELECT plans below the set operations of a plan. -/
def leaves : LogicalPlan → List LogicalPlan
  | .setOperation _ plan0 plan1 => leaves plan0 ++ leaves plan1
  | plan => [plan]

/-- Set operations of the given kinds over SELECT plans. -/
inductive SetTree (ok : SetOption → Prop) (Leaf : LogicalPlan → Prop) : LogicalPlan → Prop
  | leaf {plan : LogicalPlan} (hleaf : Leaf plan) : SetTree ok Leaf plan
  | setOperation {option : SetOption} {plan0 plan1 : LogicalPlan}
      (hok : ok option) (hplan0 : SetTree ok Leaf plan0) (hplan1 : SetTree ok Leaf plan1) :
      SetTree ok Leaf (.setOperation option plan0 plan1)

/-- A SELECT plan whose keys are in place. -/
inductive Joined (counter : Nat) : LogicalPlan → Prop
  | insert {columns tableJoin whereCond orderBy : LogicalPlan}
      {keys : List SqlKey} {keywords : List OptionalKeyword} {output : SqlKey}
      (hkeys : keys ≠ []) (hwhere : AndOrWhere counter whereCond) :
      Joined counter (.insert columns tableJoin whereCond orderBy keys keywords output)

/-- A SELECT plan that is not split any further. -/
structure Conjunctive (counter : Nat) (plan : LogicalPlan) : Prop where
  joined : Joined counter plan
  orFree : orFree (selectWhere plan) = true

def anyWhere (assign : LogicalPlan → Bool) (plan : LogicalPlan) : Bool :=
  (leaves plan).any fun leaf => truth assign (selectWhere leaf)

variable (assign : LogicalPlan → Bool)

@[simp] theorem anyWhere_setOperation (option : SetOption)
    (plan0 plan1 : LogicalPlan) : anyWhere assign (.setOperation option plan0 plan1) =
    (anyWhere assign plan0 || anyWhere assign plan1) := by
  simp [anyWhere, leaves]

@[simp] theorem anyWhere_insert (columns tableJoin whereCond orderBy : LogicalPlan)
    (keys : List SqlKey) (keywords : List OptionalKeyword) (output : SqlKey) :
    anyWhere assign (.insert columns tableJoin whereCond orderBy keys keywords
    output) = truth assign whereCond := by
  simp [anyWhere, leaves, selectWhere]

/-- The plan is optimised, whatever the state, into conjunctive plans whose
WHEREs together are the WHEREs of the plan. -/
def Expands (counter : Nat) (ok : SetOption → Prop) (plan : LogicalPlan) : Prop :=
  ∀ state : OptimizerState, counter ≤ state.counter → ∃ fuel result state',
      optimizeLogicalPlan fuel plan state = some (result, state') ∧ counter ≤ state'.counter ∧
      SetTree ok (Conjunctive counter) result ∧
      ∀ assign, anyWhere assign result = anyWhere assign plan

variable {counter : Nat} {cur normal plan tree whereCond : LogicalPlan}
  {criteria : Criteria} {Leaf : LogicalPlan → Prop} {ok : SetOption → Prop}
  {keys : List SqlKey} {state : OptimizerState}

theorem Comparison.clause (htree : Comparison counter tree) : Clause tree := by
  obtain ⟨type, inverse, left, right, rfl, htype⟩ := htree.comparison
  refine ⟨by simp, ?_, ?_⟩ <;> intro heq <;>
    simp only [LogicalPlan.type] at heq <;> subst heq <;>
    simp [invertComparison] at htype

theorem Comparison.type_ne_not (htree : Comparison counter tree) : tree.type ≠ .booleanNot := by
  obtain ⟨type, inverse, left, right, rfl, htype⟩ := htree.comparison
  intro heq
  subst heq
  simp [invertComparison] at htype

theorem disjuncts_pos (tree : LogicalPlan) : 0 < disjuncts tree := by
  induction tree with
  | node type left right ihLeft ihRight =>
    simp only [disjuncts]
    split_ifs
    · exact Nat.mul_pos ihLeft ihRight
    · omega
    · omega
  | _ => simp [disjuncts]

theorem tableKeys_ne_nil (table : SqlTable) (uniqueId : Nat)
    (outputKey : Option CrossReferenceKey) : tableKeys table uniqueId outputKey ≠ [] := by
  simp [tableKeys, table.keyColumns_ne_nil]

variable (fuel : Nat)

/-- A cross reference plan has one table and no WHERE. -/
theorem optimizeLogicalPlan_xrefPlan (table : SqlTable) (column : SqlColumn)
    (uniqueId newId : Nat) (state : OptimizerState) : ∃ plan, optimizeLogicalPlan (fuel + 1)
    (xrefPlan table column uniqueId newId) state = some (plan, state) := by
  simp [optimizeLogicalPlan, xrefPlan, populateKeys, joinTables,
    lpMakeNormalDisjunctiveForm, normalDisjunctiveForm, size, expandOrFix,
    splitArms, lpOptimizeWhereMultiEqualAnds, tableKeys_ne_nil,
    lpOptimizeWhereMultiEqualAndsHelper]

theorem spliceXrefKeys_ne_nil (uniqueId : Nat) (columnKey : SqlKey) (xrefKeys keys : List SqlKey) :
    spliceXrefKeys uniqueId columnKey xrefKeys keys ≠ [] := by
  unfold spliceXrefKeys
  split
  · simp
  · split <;> simp

/-- What fixing keys needs and keeps. -/
structure Criteria.Ready (counter : Nat) (criteria : Criteria) : Prop where
  keys_ne_nil : criteria.keys ≠ []
  counter_le : counter ≤ criteria.state.counter

theorem fixColumn_ready (ref : SqlColumnAlias) (value : KeyValue)
    (hcriteria : criteria.Ready counter) :
    ∃ result, fixColumn (optimizeLogicalPlan (fuel + 1)) ref value criteria =
      some result ∧ result.Ready counter := by
  unfold fixColumn
  cases lpGetKey criteria.keys ref with
  | some index =>
    refine ⟨_, rfl, ?_, hcriteria.counter_le⟩
    have hlength := length_pos_iff.mpr hcriteria.keys_ne_nil
    rw [← length_pos_iff, length_modify]
    exact hlength
  | none =>
    by_cases hjoins : joinsTable ref.tableAlias.uniqueId criteria.tableJoin
    · obtain ⟨plan, hplan⟩ := optimizeLogicalPlan_xrefPlan fuel
        ref.tableAlias.table ref.column ref.tableAlias.uniqueId criteria.state.counter
        { criteria.state with counter := criteria.state.counter + 1 }
      simp only [hjoins, ↓reduceIte, lpGenerateXrefPlan, hplan]
      exact ⟨_, rfl, spliceXrefKeys_ne_nil _ _ _ _, Nat.le_succ_of_le hcriteria.counter_le⟩
    · simp only [hjoins]
      exact ⟨criteria, rfl, hcriteria⟩

variable (order : Nat → Nat)

theorem fixEquals_ready {left right : LogicalPlan}
    (hequals : Comparison counter (.node .booleanEquals left right))
    (hcriteria : criteria.Ready counter) :
    ∃ result, fixEquals (optimizeLogicalPlan (fuel + 1)) order left right
    criteria = some result ∧ result.Ready counter := by
  have hfix : equalityFix order criteria left right ≠ none := by
    unfold equalityFix
    split
    · rename_i l r
      have hbelow := hequals.below l r rfl
      have hle := hcriteria.counter_le
      have hids : l.tableAlias.uniqueId < criteria.state.counter ∧
          r.tableAlias.uniqueId < criteria.state.counter := by omega
      simp only [hids]
      split_ifs <;> simp_all
    · split_ifs <;> simp
    · split_ifs <;> simp
    · simp
  unfold fixEquals
  split
  · contradiction
  · exact ⟨criteria, rfl, hcriteria⟩
  · exact fixColumn_ready fuel _ _ hcriteria

theorem equalAndsHelper_ready
    (hwhere : AndOr (Comparison counter) whereCond) (hor : orFree whereCond = true)
    (hcriteria : criteria.Ready counter) : ∃ result, lpOptimizeWhereMultiEqualAndsHelper
    (optimizeLogicalPlan (fuel + 1)) order whereCond criteria =
    some result ∧ result.Ready counter := by
  induction hwhere generalizing criteria with
  | leaf hleaf =>
    have hne := hleaf.clause
    obtain ⟨type, inverse, left, right, rfl, htype⟩ := hleaf.comparison
    have hneOr : type ≠ .booleanOr := hne.ne_or
    have hneAnd : type ≠ .booleanAnd := hne.ne_and
    simp only [lpOptimizeWhereMultiEqualAndsHelper, hneOr, hneAnd, ↓reduceIte]
    by_cases heq : type = .booleanEquals
    · subst heq
      simpa using fixEquals_ready fuel order hleaf hcriteria
    · simp only [heq, ↓reduceIte]
      exact ⟨criteria, rfl, hcriteria⟩
  | and _ _ ihLeft ihRight =>
    simp only [orFree_and, Bool.and_eq_true] at hor
    obtain ⟨middle, hmiddle, hmiddleReady⟩ := ihLeft hor.1 hcriteria
    obtain ⟨result, hresult, hready⟩ := ihRight hor.2 hmiddleReady
    refine ⟨result, ?_, hready⟩
    simp [lpOptimizeWhereMultiEqualAndsHelper, hmiddle, hresult]
  | or _ _ _ _ => simp [orFree] at hor

/-- The arms of a WHERE and the clause that is left, as disjuncts. -/
structure Split (Leaf : LogicalPlan → Prop) (tree : LogicalPlan)
    (arms : List LogicalPlan) (cur : LogicalPlan) : Prop where
  arms_andOr : ∀ arm ∈ arms, AndOr Leaf arm
  cur_andOr : AndOr Leaf cur
  truth_eq : ∀ assign, truth assign tree = (arms.any (truth assign ·) || truth assign cur)
  disjuncts_eq : disjuncts tree = (arms.map disjuncts).sum + disjuncts cur

theorem splitArms_split (hclause : ∀ {tree : LogicalPlan}, Leaf tree → Clause tree)
    (htree : AndOr Leaf tree) : Split Leaf tree (splitArms tree).1 (splitArms tree).2 := by
  induction htree with
  | @leaf tree hleaf =>
    have hne := (hclause hleaf).ne_or
    have harms : splitArms tree = ([], tree) := by
      cases tree <;> simp_all [splitArms, LogicalPlan.type]
    rw [harms]
    exact ⟨by simp, .leaf hleaf, by simp, by simp⟩
  | and hleft hright _ _ =>
    simp only [splitArms, reduceCtorEq, ↓reduceIte]
    exact ⟨by simp, .and hleft hright, by simp, by simp⟩
  | or hleft hright _ ih =>
    simp only [splitArms, ↓reduceIte]
    refine ⟨?_, ih.cur_andOr, ?_, ?_⟩
    · intro arm harm
      rcases mem_cons.mp harm with rfl | harm
      · exact hleft
      · exact ih.arms_andOr arm harm
    · intro assign
      simp [ih.truth_eq assign, Bool.or_assoc]
    · simp [ih.disjuncts_eq, Nat.add_assoc]

/-- Without an arm there is nothing to split. -/
theorem splitArms_nil (hclause : ∀ {tree : LogicalPlan}, Leaf tree → Clause tree)
    (htree : AndOr Leaf tree) (hsplit : splitArms tree = ([], cur)) :
    cur = tree ∧ tree.type ≠ .booleanOr := by
  cases htree with
  | leaf hleaf =>
    have hne := (hclause hleaf).ne_or
    refine ⟨?_, hne⟩
    cases tree <;> simp_all [splitArms, LogicalPlan.type]
  | and _ _ =>
    simp only [splitArms, reduceCtorEq, ↓reduceIte, Prod.mk.injEq, true_and] at hsplit
    exact ⟨hsplit.symm, by simp [LogicalPlan.type]⟩
  | or _ _ => simp [splitArms] at hsplit

/-- The expansion loop joins one leaf for each arm to the plan. -/
theorem expandArms_setTree (hok : ok .unionAll) (columns tableJoin cur orderBy : LogicalPlan)
    (keys : List SqlKey) (keywords : List OptionalKeyword) (output : SqlKey)
    (arms : List LogicalPlan) (hleaf : ∀ arm ∈ arms, ∀ columns tableJoin orderBy,
    Leaf (.insert columns tableJoin arm orderBy keys keywords output)) (newPlan : LogicalPlan)
    (hnew : SetTree ok Leaf newPlan) (copies : Nat) :
    SetTree ok Leaf (expandArms (.insert columns tableJoin cur orderBy keys
    keywords output) arms newPlan copies).1 ∧
    ∀ assign, anyWhere assign (expandArms (.insert columns tableJoin cur
    orderBy keys keywords output) arms newPlan copies).1 =
    (anyWhere assign newPlan || arms.any (truth assign ·)) := by
  induction arms generalizing newPlan copies with
  | nil => exact ⟨hnew, by simp [expandArms]⟩
  | cons arm rest ih =>
    have harm := hleaf arm (by simp) (lpCopyPlan copies columns)
      (lpCopyPlan copies tableJoin) (lpCopyPlan copies orderBy)
    obtain ⟨htree, htruth⟩ := ih (fun a ha => hleaf a (mem_cons_of_mem arm ha))
      (.setOperation .unionAll newPlan (setWhere arm (lpCopyPlan copies
      (.insert columns tableJoin cur orderBy keys keywords output))))
      (.setOperation hok hnew (.leaf harm)) (copies + 1)
    refine ⟨htree, ?_⟩
    intro assign
    rw [expandArms, htruth assign]
    simp [lpCopyPlan, setWhere, Bool.or_assoc]

theorem Expands.setTree (hplan : SetTree ok (Expands counter ok) plan) :
    Expands counter ok plan := by
  induction hplan with
  | leaf hleaf => exact hleaf
  | @setOperation option plan0 plan1 hok _ _ ih0 ih1 =>
    intro state hstate
    obtain ⟨n0, r0, s0, h0, hs0, ht0, htruth0⟩ := ih0 state hstate
    obtain ⟨n1, r1, s1, h1, hs1, ht1, htruth1⟩ := ih1 s0 hs0
    refine ⟨max n0 n1 + 1, .setOperation option r0 r1, s1, ?_, hs1, .setOperation hok ht0 ht1, ?_⟩
    · simp [optimizeLogicalPlan, optimizeLogicalPlan_mono (Nat.le_max_left n0 n1) h0,
        optimizeLogicalPlan_mono (Nat.le_max_right n0 n1) h1]
    · intro assign
      simp [htruth0 assign, htruth1 assign]

theorem SetTree.mono {More : LogicalPlan → Prop} (hmore : ∀ {plan}, Leaf plan → More plan)
    (hplan : SetTree ok Leaf plan) : SetTree ok More plan := by
  induction hplan with
  | leaf hleaf => exact .leaf (hmore hleaf)
  | setOperation hok _ _ ih0 ih1 => exact .setOperation hok ih0 ih1

theorem Conjunctive.leaves_eq (hplan : Conjunctive counter plan) : leaves plan = [plan] := by
  cases hplan.joined with
  | insert _ _ => rfl

theorem SetTree.leaves_conjunctive (hplan : SetTree ok (Conjunctive counter) plan) :
    ∀ leaf ∈ leaves plan, Conjunctive counter leaf := by
  induction hplan with
  | leaf hleaf =>
    rw [hleaf.leaves_eq]
    simpa using hleaf
  | setOperation _ _ _ ih0 ih1 =>
    intro leaf hleaf
    rcases mem_append.mp hleaf with hleaf | hleaf
    · exact ih0 leaf hleaf
    · exact ih1 leaf hleaf

variable {keywords : List OptionalKeyword} {output : SqlKey}

/-- A plan with its keys in place: the two ways on from the normal form of its
WHERE. -/
theorem optimizeLogicalPlan_joined {columns tableJoin orderBy : LogicalPlan}
    (state : OptimizerState) (hkeys : keys ≠ [])
    (hnormal : lpMakeNormalDisjunctiveForm whereCond = some normal) : optimizeLogicalPlan (fuel + 1)
    (.insert columns tableJoin whereCond orderBy keys keywords output) state =
    expandOrFix (optimizeLogicalPlan fuel) columns tableJoin normal orderBy
    keys keywords output state := by
  simp [optimizeLogicalPlan, populateKeys, hkeys, hnormal]

/-- A normal form without an OR at its root ends the expansion. -/
theorem Expands.conjunctive (columns tableJoin orderBy : LogicalPlan)
    (keywords : List OptionalKeyword) (output : SqlKey) (hkeys : keys ≠ [])
    (hnormal : lpMakeNormalDisjunctiveForm whereCond = some normal)
    (hwhere : AndOrWhere counter normal) (hor : orFree normal = true)
    (hsplit : splitArms normal = ([], normal))
    (htruth : ∀ assign, truth assign normal = truth assign whereCond) :
    Expands counter ok (.insert columns tableJoin whereCond orderBy keys keywords output) := by
  intro state hstate
  have hready : Criteria.Ready counter ⟨tableJoin, keys, state⟩ :=
    ⟨hkeys, hstate⟩
  obtain ⟨criteria, hcriteria, hfixed⟩ : ∃ result, lpOptimizeWhereMultiEqualAnds
      (optimizeLogicalPlan 1) normal ⟨tableJoin, keys, state⟩ = some result ∧
      result.Ready counter := by
    simp only [lpOptimizeWhereMultiEqualAnds, hready.keys_ne_nil, ↓reduceIte]
    rcases hwhere with rfl | hwhere
    · exact ⟨_, rfl, hready⟩
    · exact equalAndsHelper_ready 0 _ hwhere hor hready
  refine ⟨2, .insert columns criteria.tableJoin normal orderBy criteria.keys
    keywords output, criteria.state, ?_, hfixed.counter_le,
    .leaf ⟨.insert hfixed.keys_ne_nil hwhere, hor⟩, ?_⟩
  · rw [optimizeLogicalPlan_joined 1 state hkeys hnormal]
    simp only [expandOrFix, hsplit, hcriteria]
    rfl
  · intro assign
    rw [anyWhere_insert, anyWhere_insert, htruth assign]

/-- Each arm stands for fewer conjunctions than the WHERE it is split off. -/
theorem Split.lt {arms : List LogicalPlan} (hsplit : Split Leaf tree arms cur) (harms : arms ≠ []) :
    disjuncts cur < disjuncts tree ∧ ∀ arm ∈ arms, disjuncts arm < disjuncts tree := by
  have hcur := disjuncts_pos cur
  have hle : ∀ arm ∈ arms, disjuncts arm ≤ (arms.map disjuncts).sum :=
    fun arm harm => single_le_sum (by simp) _ (mem_map_of_mem harm)
  rw [hsplit.disjuncts_eq]
  constructor
  · obtain ⟨arm, harm⟩ := exists_mem_of_ne_nil arms harms
    have := hle arm harm
    have := disjuncts_pos arm
    omega
  · intro arm harm
    have := hle arm harm
    omega

/-- Splitting and normalising again reaches an end. -/
theorem Expands.joined (hok : ok .unionAll) (bound : Nat) (hplan : Joined counter plan)
    (hbound : disjuncts (selectWhere plan) ≤ bound) : Expands counter ok plan := by
  induction bound generalizing plan with
  | zero =>
    have := disjuncts_pos (selectWhere plan)
    omega
  | succ bound ih =>
    cases hplan with
    | @insert columns tableJoin whereCond orderBy keys keywords output hkeys hwhere =>
    rcases hwhere with rfl | hwhere
    · exact Expands.conjunctive columns tableJoin orderBy keywords output
        hkeys rfl (.inl rfl) rfl rfl fun _ => rfl
    · obtain ⟨normal, hnormal, hspec⟩ := normalDisjunctiveForm_andOr
        Comparison.clause Comparison.type_ne_not whereCond.size hwhere (Nat.le_refl _)
      have hsplit := splitArms_split Comparison.clause hspec.andOr
      cases harms : splitArms normal with
      | mk arms cur =>
      cases arms with
      | nil =>
        obtain ⟨rfl, htype⟩ := splitArms_nil Comparison.clause hspec.andOr harms
        exact Expands.conjunctive columns tableJoin orderBy keywords output
          hkeys hnormal (.inr hspec.andOr) (hspec.orFree htype) harms hspec.truth_eq
      | cons first rest =>
        rw [harms] at hsplit
        have hlt := hsplit.lt (by simp)
        rw [hspec.disjuncts_eq] at hlt
        simp only [selectWhere] at hbound
        have hexpands : ∀ w, AndOr (Comparison counter) w →
            disjuncts w < disjuncts whereCond → ∀ c t o, Expands counter ok (.insert c t w o keys
            (addPartOfExpansion keywords) output) := by
          intro w hw hless c t o
          apply ih (.insert hkeys (.inr hw))
          simp only [selectWhere]
          omega
        let plan := LogicalPlan.insert columns tableJoin cur orderBy keys
          (addPartOfExpansion keywords) output
        have hplan : Expands counter ok plan :=
          hexpands cur hsplit.cur_andOr hlt.1 columns tableJoin orderBy
        intro state hstate
        obtain ⟨htree, htreeTruth⟩ := expandArms_setTree hok columns
          tableJoin cur orderBy keys (addPartOfExpansion keywords) output (first :: rest)
          (fun arm harm => hexpands arm (hsplit.arms_andOr arm harm)
          (hlt.2 arm harm)) plan (.leaf hplan) state.copies
        let copies := (expandArms plan (first :: rest) plan state.copies).2
        obtain ⟨fuel, result, state', hrun, hstate', hresult, htruth⟩ :=
          Expands.setTree htree ⟨state.counter, copies⟩ hstate
        refine ⟨fuel + 1, result, state', ?_, hstate', hresult, ?_⟩
        · rw [optimizeLogicalPlan_joined fuel state hkeys hnormal]
          simp only [expandOrFix, harms]
          exact hrun
        · intro assign
          rw [htruth, htreeTruth, anyWhere_insert, anyWhere_insert,
            ← hspec.truth_eq, hsplit.truth_eq, Bool.or_comm]

theorem SetTree.expands (hok : ok .unionAll) (hplan : SetTree ok (Conjunctive counter) plan) :
    Expands counter ok plan := by
  apply Expands.setTree
  apply hplan.mono
  intro leaf hleaf
  exact Expands.joined hok _ hleaf.joined (Nat.le_refl _)

theorem SetTree.exists_outputKey (hplan : SetTree ok (Conjunctive counter) plan) :
    ∃ output, lpGetOutputKey plan = some output := by
  induction hplan with
  | leaf hleaf =>
    cases hleaf.joined with
    | insert _ _ => exact ⟨_, rfl⟩
  | setOperation _ _ _ ih _ => exact ih

/-- A run of `join_tables` that leaves the plan with keys. -/
def JoinsFrom (counter : Nat) (tableJoin : LogicalPlan) (keys : List SqlKey)
    (state : OptimizerState) : Prop :=
  ∃ fuel joined newKeys state', joinTables (optimizeLogicalPlan fuel) tableJoin keys state =
    some (joined, newKeys, state') ∧ newKeys ≠ [] ∧ counter ≤ state'.counter

def anyOption (_ : SetOption) : Prop := True

theorem joinSetOperation_some {plan0 plan1 : LogicalPlan} (hplan0 : Expands counter anyOption plan0)
    (hplan1 : Expands counter anyOption plan1) (option : SetOption) (next : LogicalPlan)
    (keys : List SqlKey) (hstate : counter ≤ state.counter) : ∃ fuel joined newKeys state',
    joinSetOperation (optimizeLogicalPlan fuel) option plan0 plan1 next keys
    state = some (joined, newKeys, state') ∧ newKeys ≠ [] ∧ counter ≤ state'.counter := by
  obtain ⟨n0, r0, s0, h0, hs0, ht0, _⟩ := hplan0 state hstate
  obtain ⟨n1, r1, s1, h1, hs1, _, _⟩ := hplan1 s0 hs0
  obtain ⟨output, houtput⟩ := ht0.exists_outputKey
  refine ⟨max n0 n1, .node .tableJoin (.setOperation option r0 r1) next,
    keys ++ [output], s1, ?_, by simp, hs1⟩
  simp [joinSetOperation, houtput, optimizeLogicalPlan_mono (Nat.le_max_left n0 n1) h0,
    optimizeLogicalPlan_mono (Nat.le_max_right n0 n1) h1]

variable {counter : Nat} {keys : List SqlKey} {state : OptimizerState}

/-- A derived table is optimised, and once more if that has split it. -/
theorem JoinsFrom.insert {source next : LogicalPlan}
    (hsource : ∃ columns tableJoin whereCond orderBy keys keywords output,
    source = .insert columns tableJoin whereCond orderBy keys keywords output)
    (hexpands : Expands counter anyOption source)
    (hnext : ∀ keys state, keys ≠ [] → counter ≤ state.counter → JoinsFrom counter next keys state)
    (hstate : counter ≤ state.counter) :
    JoinsFrom counter (.node .tableJoin source next) keys state := by
  obtain ⟨n, result, s, hrun, hs, hresult, _⟩ := hexpands state hstate
  obtain ⟨_, _, _, _, _, _, _, rfl⟩ := hsource
  cases hresult with
  | leaf hleaf =>
    cases hleaf.joined with
    | @insert columns tableJoin whereCond orderBy subKeys keywords output _ _ =>
    obtain ⟨m, joined, newKeys, s', hjoin, hnew, hs'⟩ :=
      hnext (keys ++ [output]) s (by simp) hs
    have hrun' := optimizeLogicalPlan_mono (Nat.le_max_left n m) hrun
    have hjoin' := joinTables_mono (optimizeLogicalPlan_le (Nat.le_max_right n m)) next hjoin
    refine ⟨max n m, .node .tableJoin (.insert columns tableJoin whereCond
      orderBy subKeys keywords output) joined, newKeys, s', ?_, hnew, hs'⟩
    simp [joinTables, hrun', hjoin']
  | @setOperation option plan0 plan1 _ hplan0 hplan1 =>
    obtain ⟨m, joined, newKeys, s', hjoin, hnew, hs'⟩ :=
      joinSetOperation_some (hplan0.expands trivial) (hplan1.expands trivial) option next keys hs
    have hrun' := optimizeLogicalPlan_mono (Nat.le_max_left n m) hrun
    refine ⟨max n m, joined, newKeys, s', ?_, hnew, hs'⟩
    have hjoin' := joinSetOperation_mono (optimizeLogicalPlan_le (Nat.le_max_right n m)) hjoin
    simp [joinTables, hrun', hjoin']

/-- The sources are joined in turn, until a set operation ends the walk. -/
theorem Sources.joinsFrom (tableJoin : LogicalPlan)
    (hplans : ∀ plan : LogicalPlan, plan.size < tableJoin.size →
    Optimizable counter plan → Expands counter anyOption plan)
    (hsources : Sources counter tableJoin) (hkeys : keys ≠ [] ∨ tableJoin ≠ .null)
    (hstate : counter ≤ state.counter) : JoinsFrom counter tableJoin keys state := by
  induction tableJoin generalizing keys state with
  | node type source next _ ihNext =>
    have hnext : Sources counter next → ∀ keys state, keys ≠ [] →
        counter ≤ state.counter → JoinsFrom counter next keys state := by
      intro hsources keys state hkeys hstate
      refine ihNext ?_ hsources (.inl hkeys) hstate
      intro plan hsize
      exact hplans plan (by simp only [size]; omega)
    cases hsources with
    | table ref hsourcesNext =>
      obtain ⟨n, joined, newKeys, s, hjoin, hnew, hs⟩ := hnext hsourcesNext
        (keys ++ tableKeys ref.table ref.uniqueId none) state (by simp [tableKeys_ne_nil]) hstate
      refine ⟨n, .node .tableJoin (.table ref) joined, newKeys, s, ?_, hnew, hs⟩
      simp [joinTables, hjoin]
    | derived hplan hsourcesNext =>
      have hexpands := hplans source (by simp only [size]; omega) hplan
      cases hplan with
      | insert _ _ _ =>
        exact JoinsFrom.insert ⟨_, _, _, _, _, _, _, rfl⟩ hexpands (hnext hsourcesNext) hstate
      | setOperation hplan0 hplan1 =>
        have h0 := hplans _ (by simp only [size]; omega) hplan0
        have h1 := hplans _ (by simp only [size]; omega) hplan1
        obtain ⟨n, joined, newKeys, s, hjoin, hnew, hs⟩ :=
          joinSetOperation_some h0 h1 _ next keys hstate
        refine ⟨n, joined, newKeys, s, ?_, hnew, hs⟩
        simpa [joinTables] using hjoin
  | null =>
    refine ⟨0, .null, keys, state, rfl, ?_, hstate⟩
    simpa using hkeys
  | _ => cases hsources

/-- Once its sources are joined, a plan is optimised like one that came with
its keys. -/
theorem Expands.insert {ok : SetOption → Prop} (hok : ok .unionAll)
    {plan : LogicalPlan} (hplan : Optimizable counter plan) (hinsert : plan.type = .insert)
    (hplans : ∀ sub : LogicalPlan, sub.size < plan.size →
    Optimizable counter sub → Expands counter anyOption sub) : Expands counter ok plan := by
  cases hplan with
  | setOperation _ _ => cases hinsert
  | @insert columns tableJoin whereCond orderBy keys keywords output hwhere hjoin hsources =>
  by_cases hkeys : keys = []
  · intro state hstate
    subst hkeys
    have hrun : JoinsFrom counter tableJoin [] state := by
      refine (hsources rfl).joinsFrom tableJoin ?_ (.inr (hjoin rfl)) hstate
      intro sub hsize
      exact hplans sub (by simp only [size]; omega)
    obtain ⟨n, joined, newKeys, s, hrun, hnew, hs⟩ := hrun
    have hjoined : Joined counter (.insert columns joined whereCond orderBy
        newKeys keywords output) := .insert hnew hwhere
    obtain ⟨m, result, s', hresult, hs', htree, htruth⟩ :=
      Expands.joined hok _ hjoined (Nat.le_refl _) s hs
    refine ⟨max n m + 1, result, s', ?_, hs', htree, ?_⟩
    · have hresult' := optimizeLogicalPlan_mono (Nat.le_succ_of_le (Nat.le_max_right n m)) hresult
      have hrun' := joinTables_mono (optimizeLogicalPlan_le (Nat.le_max_left n m)) tableJoin hrun
      rw [optimizeLogicalPlan] at hresult' ⊢
      simpa [populateKeys, hnew, hrun'] using hresult'
    · intro assign
      rw [htruth, anyWhere_insert, anyWhere_insert]
  · exact Expands.joined hok _ (.insert hkeys hwhere) (Nat.le_refl _)

theorem Optimizable.expands (bound : Nat) (hbound : plan.size ≤ bound)
    (hplan : Optimizable counter plan) : Expands counter anyOption plan := by
  induction bound generalizing plan with
  | zero =>
    have hpos : 0 < plan.size := by cases plan <;> simp [size]
    omega
  | succ bound ih =>
    have hsub : ∀ sub : LogicalPlan, sub.size < plan.size →
        Optimizable counter sub → Expands counter anyOption sub := by
      intro sub hsize hsub
      exact ih (by omega) hsub
    cases hplan with
    | insert hwhere hjoin hsources =>
      exact Expands.insert trivial (.insert hwhere hjoin hsources) rfl hsub
    | setOperation hplan0 hplan1 =>
      have h0 := hsub _ (by simp only [size]; omega) hplan0
      have h1 := hsub _ (by simp only [size]; omega) hplan1
      exact Expands.setTree (.setOperation trivial (.leaf h0) (.leaf h1))

/-- The optimiser ends on every SELECT plan whose WHEREs use AND and OR only,
and splits it into a UNION ALL of conjunctive plans whose WHEREs together are
the WHERE of the plan. -/
theorem optimizeLogicalPlan_splits_or {columns tableJoin whereCond orderBy : LogicalPlan}
    {keys : List SqlKey} {keywords : List OptionalKeyword} {output : SqlKey}
    {state : OptimizerState} (hplan : Optimizable state.counter (.insert columns tableJoin whereCond
    orderBy keys keywords output)) : ∃ fuel result state', (∀ more, fuel ≤ more →
    optimizeLogicalPlan more (.insert columns tableJoin whereCond orderBy
    keys keywords output) state = some (result, state')) ∧
    SetTree (· = .unionAll) (Conjunctive state.counter) result ∧
    (∀ leaf ∈ leaves result, orFree (selectWhere leaf) = true) ∧
    ∀ assign, ((leaves result).any fun leaf =>
        truth assign (selectWhere leaf)) = truth assign whereCond := by
  have hexpands : Expands state.counter (· = .unionAll) (.insert columns
      tableJoin whereCond orderBy keys keywords output) := by
    refine Expands.insert ?_ hplan rfl ?_
    · rfl
    · intro sub _ hsub
      exact hsub.expands _ (Nat.le_refl _)
  obtain ⟨fuel, result, state', hrun, _, htree, htruth⟩ :=
    hexpands state (Nat.le_refl _)
  refine ⟨fuel, result, state', ?_, htree, ?_, ?_⟩
  · intro more hmore
    exact optimizeLogicalPlan_mono hmore hrun
  · intro leaf hleaf
    exact (htree.leaves_conjunctive leaf hleaf).orFree
  · intro assign
    rw [← anyWhere, htruth, anyWhere_insert]

namespace OrExpansionWitness

def names : SqlTable where
  tableName := "names"
  columns := [⟨"id"⟩, ⟨"firstName"⟩]
  keyColumns := [⟨"id"⟩]
  keyColumns_ne_nil := idColumn_ne_nil

def column (name : String) : LogicalPlan :=
  .columnAlias ⟨⟨names, 0⟩, ⟨name⟩⟩

def equals (name text : String) : LogicalPlan :=
  .node .booleanEquals (column name) (.value ⟨.stringLiteral, text⟩)

/-- `(id = '1' OR firstName = 'a') AND id = '2'` -/
def whereOr : LogicalPlan :=
  .node .booleanAnd (.node .booleanOr (equals "id" "1") (equals "firstName" "a")) (equals "id" "2")

def outputKey : SqlKey where
  keyColumn := none
  keyNum := 0
  uniqueId := 1
  value := none
  type := .advance
  isCrossReferenceKey := false
  crossReferenceOutputKey := none

/-- `SELECT id FROM names WHERE ...` -/
def select (whereCond : LogicalPlan) : LogicalPlan :=
  .insert (.node .columnList (.node .whereNode (column "id") .null) .null)
    (.node .tableJoin (.table ⟨names, 0⟩) .null) whereCond .null [] [] outputKey

theorem select_optimizable : Optimizable 2 (select whereOr) := by
  have hequals : ∀ name text, Comparison 2 (equals name text) := by
    refine fun name text => ⟨⟨_, _, _, _, rfl, rfl⟩, ?_⟩
    intro left right heq
    simp [equals] at heq
  refine .insert (.inr ?_) (by simp) fun _ => .table _ .nil
  exact .and (.or (.leaf (hequals _ _)) (.leaf (hequals _ _))) (.leaf (hequals _ _))

end OrExpansionWitness

open OrExpansionWitness in
/-- `SELECT id FROM names WHERE (id = '1' OR firstName = 'a') AND id = '2'` -/
theorem select_or_splits : ∃ fuel result state', (∀ more, fuel ≤ more →
      optimizeLogicalPlan more (select whereOr) ⟨2, 0⟩ = some (result, state')) ∧
    SetTree (· = .unionAll) (Conjunctive 2) result ∧
    (∀ leaf ∈ leaves result, orFree (selectWhere leaf) = true) ∧
    ∀ assign, ((leaves result).any fun leaf =>
      truth assign (selectWhere leaf)) = truth assign whereOr :=
  optimizeLogicalPlan_splits_or select_optimizable

end Octo
