/-
The optimiser.  A SELECT plan gets its keys from the tables it joins; then its
WHERE is put into disjunctive normal form and, as long as an OR is at the
root, the plan is split into a UNION ALL with one arm for each disjunct and
the arms are optimised again.
-/
import Octo.KeyFix
import Octo.NormalForm

namespace Octo

open LogicalPlan Option

/-- `lp_copy_plan`.  Every operand field of the copy is a new one. -/
def lpCopyPlan (copy : Nat) : LogicalPlan → LogicalPlan
  | .subquery slot plan => .subquery (copy :: slot) (lpCopyPlan copy plan)
  | .node type operand0 operand1 =>
    .node type (lpCopyPlan copy operand0) (lpCopyPlan copy operand1)
  | .insert columns tableJoin whereCond orderBy keys keywords output =>
    .insert (lpCopyPlan copy columns) (lpCopyPlan copy tableJoin)
      (lpCopyPlan copy whereCond) (lpCopyPlan copy orderBy) keys keywords output
  | .setOperation option plan0 plan1 =>
    .setOperation option (lpCopyPlan copy plan0) (lpCopyPlan copy plan1)
  | leaf => leaf

/-- `lp_get_output_key`, through `lp_drill_to_insert`. -/
def lpGetOutputKey : LogicalPlan → Option SqlKey
  | .insert _ _ _ _ _ _ output => some output
  | .setOperation _ plan0 _ => lpGetOutputKey plan0
  | _ => none

/-- The branch of `join_tables` for a set operation: its two sides are
optimised, also if they have just been, and the tables after it are not
joined. -/
def joinSetOperation (optimize : Optimizer) (option : SetOption)
    (plan0 plan1 next : LogicalPlan) (keys : List SqlKey) (state : OptimizerState) :
    Option (LogicalPlan × List SqlKey × OptimizerState) := do
  let (plan0, state) ← optimize plan0 state
  let (plan1, state) ← optimize plan1 state
  let output ← lpGetOutputKey plan0
  some (.node .tableJoin (.setOperation option plan0 plan1) next, keys ++ [output], state)

/-- `join_tables`: the keys of the joined tables, in order. -/
def joinTables (optimize : Optimizer) : LogicalPlan → List SqlKey → OptimizerState →
    Option (LogicalPlan × List SqlKey × OptimizerState)
  | .null, keys, state => some (.null, keys, state)
  | .node .tableJoin .null next, keys, state =>
    some (.node .tableJoin .null next, keys, state)
  | .node .tableJoin (.table ref) next, keys, state => do
    let (next, keys, state) ← joinTables optimize next
      (keys ++ tableKeys ref.table ref.uniqueId none) state
    some (.node .tableJoin (.table ref) next, keys, state)
  | .node .tableJoin (.setOperation option plan0 plan1) next, keys, state =>
    joinSetOperation optimize option plan0 plan1 next keys state
  | .node .tableJoin source next, keys, state => do
    let (source, state) ← optimize source state
    match source with
    | .setOperation option plan0 plan1 =>
      joinSetOperation optimize option plan0 plan1 next keys state
    | .insert columns tableJoin whereCond orderBy subKeys keywords output =>
      let (next, keys, state) ← joinTables optimize next (keys ++ [output]) state
      some (.node .tableJoin (.insert columns tableJoin whereCond orderBy
        subKeys keywords output) next, keys, state)
    | _ => none
  | _, _, _ => none

/-- The arms the expansion loop splits off a WHERE, and the clause it leaves
to the plan itself. -/
def splitArms : LogicalPlan → List LogicalPlan × LogicalPlan
  | .node type operand0 operand1 =>
    if type = .booleanOr then
      (operand0 :: (splitArms operand1).1, (splitArms operand1).2)
    else ([], .node type operand0 operand1)
  | cur => ([], cur)

def addPartOfExpansion (keywords : List OptionalKeyword) : List OptionalKeyword :=
  if .partOfExpansion ∈ keywords then keywords
  else keywords ++ [.partOfExpansion]

def setWhere (whereCond : LogicalPlan) : LogicalPlan → LogicalPlan
  | .insert columns tableJoin _ orderBy keys keywords output =>
    .insert columns tableJoin whereCond orderBy keys keywords output
  | plan => plan

/-- The expansion loop: each arm is a copy of the plan, but the WHERE of the
copy is the arm itself, which is shared with the other arms. -/
def expandArms (plan : LogicalPlan) : List LogicalPlan → LogicalPlan → Nat → LogicalPlan × Nat
  | [], newPlan, copies => (newPlan, copies)
  | arm :: rest, newPlan, copies =>
    expandArms plan rest (.setOperation .unionAll newPlan (setWhere arm (lpCopyPlan copies plan)))
      (copies + 1)

/-- A plan that was split for optimisation comes with its keys. -/
def populateKeys (optimize : Optimizer) (tableJoin : LogicalPlan)
    (keys : List SqlKey) (state : OptimizerState) :
    Option (LogicalPlan × List SqlKey × OptimizerState) :=
  if keys = [] then joinTables optimize tableJoin [] state
  else some (tableJoin, keys, state)

/-- The part of `optimize_logical_plan` after the tables are joined; the WHERE
is in normal form. -/
def expandOrFix (optimize : Optimizer) (columns tableJoin whereCond orderBy :
      LogicalPlan) (keys : List SqlKey) (keywords : List OptionalKeyword)
    (output : SqlKey) (state : OptimizerState) :
    Option (LogicalPlan × OptimizerState) :=
  match splitArms whereCond with
  | ([], cur) => do
    let criteria ← lpOptimizeWhereMultiEqualAnds optimize cur ⟨tableJoin, keys, state⟩
    some (.insert columns criteria.tableJoin cur orderBy criteria.keys
      keywords output, criteria.state)
  | (arms, cur) =>
    let plan := .insert columns tableJoin cur orderBy keys (addPartOfExpansion keywords) output
    let (newPlan, copies) := expandArms plan arms plan state.copies
    optimize newPlan { state with copies := copies }

/-- `optimize_logical_plan` with a bound on its recursion depth. -/
def optimizeLogicalPlan : Nat → Optimizer
  | 0, _, _ => none
  | fuel + 1, .setOperation option plan0 plan1, state => do
    let (plan0, state) ← optimizeLogicalPlan fuel plan0 state
    let (plan1, state) ← optimizeLogicalPlan fuel plan1 state
    some (.setOperation option plan0 plan1, state)
  | fuel + 1, .insert columns tableJoin whereCond orderBy keys keywords output, state => do
    let (tableJoin, keys, state) ← populateKeys (optimizeLogicalPlan fuel) tableJoin keys state
    let whereCond ← lpMakeNormalDisjunctiveForm whereCond
    expandOrFix (optimizeLogicalPlan fuel) columns tableJoin whereCond
      orderBy keys keywords output state
  | _, _, _ => none

/-- More results, and the same ones. -/
def Optimizer.LE (f g : Optimizer) : Prop :=
  ∀ plan state result, f plan state = some result → g plan state = some result

section Monotone

variable {f g : Optimizer} (hfg : f.LE g)
include hfg

variable {state : OptimizerState} {criteria result : Criteria}
  {tableJoin whereCond : LogicalPlan} {keys : List SqlKey}

theorem fixColumn_mono {ref : SqlColumnAlias} {value : KeyValue}
    (h : fixColumn f ref value criteria = some result) :
    fixColumn g ref value criteria = some result := by
  unfold fixColumn at h ⊢
  cases hkey : lpGetKey criteria.keys ref with
  | some index => simpa [hkey] using h
  | none =>
    by_cases hjoins : joinsTable ref.tableAlias.uniqueId criteria.tableJoin
    · simp only [hkey, hjoins, ↓reduceIte, bind_some_iff, Prod.exists] at h ⊢
      obtain ⟨plan, state, hplan, hresult⟩ := h
      exact ⟨plan, state, hfg _ _ _ hplan, hresult⟩
    · simpa [hkey, hjoins] using h

variable {order : Nat → Nat}

theorem fixEquals_mono {left right : LogicalPlan}
    (h : fixEquals f order left right criteria = some result) :
    fixEquals g order left right criteria = some result := by
  unfold fixEquals at h ⊢
  split at h
  · exact h
  · exact h
  · exact fixColumn_mono hfg h

theorem lpOptimizeWhereMultiEqualAndsHelper_mono (whereCond : LogicalPlan)
    (h : lpOptimizeWhereMultiEqualAndsHelper f order whereCond criteria = some result) :
    lpOptimizeWhereMultiEqualAndsHelper g order whereCond criteria = some result := by
  induction whereCond generalizing criteria result with
  | node type operand0 operand1 ih0 ih1 =>
    simp only [lpOptimizeWhereMultiEqualAndsHelper] at h ⊢
    split_ifs at h ⊢ with hor hand heq
    · simp only [bind_some_iff] at h ⊢
      obtain ⟨middle, hmiddle, hresult⟩ := h
      exact ⟨middle, ih0 hmiddle, ih1 hresult⟩
    · exact fixEquals_mono hfg h
    · exact h
  | _ => exact h

theorem lpOptimizeWhereMultiEqualAnds_mono
    (h : lpOptimizeWhereMultiEqualAnds f whereCond criteria = some result) :
    lpOptimizeWhereMultiEqualAnds g whereCond criteria = some result := by
  unfold lpOptimizeWhereMultiEqualAnds at h ⊢
  split_ifs at h ⊢
  exact lpOptimizeWhereMultiEqualAndsHelper_mono hfg whereCond h

variable {result : LogicalPlan × List SqlKey × OptimizerState}

theorem joinSetOperation_mono {option : SetOption} {plan0 plan1 next : LogicalPlan}
    (h : joinSetOperation f option plan0 plan1 next keys state = some result) :
    joinSetOperation g option plan0 plan1 next keys state = some result := by
  simp only [joinSetOperation, bind_some_iff, Prod.exists] at h ⊢
  obtain ⟨p0, s0, h0, p1, s1, h1, hresult⟩ := h
  exact ⟨p0, s0, hfg _ _ _ h0, p1, s1, hfg _ _ _ h1, hresult⟩

theorem joinTables_mono (tableJoin : LogicalPlan)
    (h : joinTables f tableJoin keys state = some result) :
    joinTables g tableJoin keys state = some result := by
  fun_induction joinTables f tableJoin keys state generalizing result with
  | case1 => simpa [joinTables] using h
  | case2 => simpa [joinTables] using h
  | case3 ref next keys state ih =>
    simp only [joinTables, bind_some_iff, Prod.exists] at h ⊢
    obtain ⟨p, ks, s, hnext, hresult⟩ := h
    exact ⟨p, ks, s, ih hnext, hresult⟩
  | case4 => simpa [joinTables] using joinSetOperation_mono hfg h
  | case5 source next keys state hnull htable hset ih =>
    simp only [joinTables, bind_some_iff, Prod.exists] at h ⊢
    obtain ⟨p, s, hsource, hresult⟩ := h
    refine ⟨p, s, hfg _ _ _ hsource, ?_⟩
    cases p with
    | setOperation option plan0 plan1 =>
      exact joinSetOperation_mono hfg hresult
    | insert columns tableJoin whereCond orderBy subKeys keywords output =>
      simp only [bind_some_iff, Prod.exists] at hresult ⊢
      obtain ⟨q, ks, s', hnext, hresult⟩ := hresult
      exact ⟨q, ks, s', ih s output hnext, hresult⟩
    | _ => exact hresult
  | case6 => cases h

theorem populateKeys_mono (h : populateKeys f tableJoin keys state = some result) :
    populateKeys g tableJoin keys state = some result := by
  unfold populateKeys at h ⊢
  split_ifs at h ⊢ with hkeys
  · exact joinTables_mono hfg tableJoin h
  · exact h

end Monotone

/-- More fuel does not change a result. -/
theorem optimizeLogicalPlan_le_succ (fuel : Nat) :
    (optimizeLogicalPlan fuel).LE (optimizeLogicalPlan (fuel + 1)) := by
  induction fuel with
  | zero =>
    intro plan state result h
    simp [optimizeLogicalPlan] at h
  | succ fuel ih =>
    intro plan state result h
    cases plan with
    | setOperation option plan0 plan1 =>
      rw [optimizeLogicalPlan] at h ⊢
      simp only [bind_some_iff, Prod.exists] at h ⊢
      obtain ⟨p0, s0, h0, p1, s1, h1, hresult⟩ := h
      exact ⟨p0, s0, ih _ _ _ h0, p1, s1, ih _ _ _ h1, hresult⟩
    | insert columns tableJoin whereCond orderBy keys keywords output =>
      rw [optimizeLogicalPlan] at h ⊢
      simp only [bind_some_iff, Prod.exists] at h ⊢
      obtain ⟨p, ks, s, hjoin, w, hwhere, hresult⟩ := h
      refine ⟨p, ks, s, populateKeys_mono ih hjoin, w, hwhere, ?_⟩
      unfold expandOrFix at hresult ⊢
      split at hresult
      · simp only [bind_some_iff] at hresult ⊢
        obtain ⟨criteria, hfix, hresult⟩ := hresult
        exact ⟨criteria, lpOptimizeWhereMultiEqualAnds_mono ih hfix, hresult⟩
      · exact ih _ _ _ hresult
    | _ => simp [optimizeLogicalPlan] at h

variable {fuel more : Nat}

theorem optimizeLogicalPlan_le (hle : fuel ≤ more) :
    (optimizeLogicalPlan fuel).LE (optimizeLogicalPlan more) := by
  intro plan state result h
  induction hle with
  | refl => exact h
  | step _ ih => exact optimizeLogicalPlan_le_succ _ _ _ _ ih

theorem optimizeLogicalPlan_mono (hle : fuel ≤ more) {plan : LogicalPlan}
    {state : OptimizerState} {result : LogicalPlan × OptimizerState}
    (h : optimizeLogicalPlan fuel plan state = some result) :
    optimizeLogicalPlan more plan state = some result :=
  optimizeLogicalPlan_le hle plan state result h

end Octo
