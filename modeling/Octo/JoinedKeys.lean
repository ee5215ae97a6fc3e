/-
The keys that joining the tables of a FROM clause gives to a plan: those of
each table in turn.  The branch for a set operation does not go on with the
tables behind it, and a derived table whose WHERE is split at an OR has become
a set operation when it is joined.
-/
import Octo.OptimizePlan

namespace Octo

open LogicalPlan Option List

def tableJoinOf (sources : List LogicalPlan) : LogicalPlan :=
  sources.foldr (.node .tableJoin) .null

/-- The keys of a stored table, or the output key of a derived one. -/
def sourceKeys : LogicalPlan → List SqlKey
  | .table ref => tableKeys ref.table ref.uniqueId none
  | plan => (lpGetOutputKey plan).toList

/-- A stored table, a derived table or a set operation. -/
def IsSource (source : LogicalPlan) : Prop :=
  (∃ ref, source = .table ref) ∨ (lpGetOutputKey source).isSome

/-- A source that is a set operation once it is optimised: it is one, or its
WHERE has an OR at its root in normal form. -/
def becomesSet : LogicalPlan → Bool
  | .setOperation _ _ _ => true
  | .insert _ _ whereCond _ _ _ _ =>
    match lpMakeNormalDisjunctiveForm whereCond with
    | some cond => (splitArms cond).1 ≠ []
    | none => false
  | _ => false

theorem sourceKeys_ne_nil {source : LogicalPlan} (hsource : IsSource source) :
    sourceKeys source ≠ [] := by
  rcases hsource with ⟨ref, rfl⟩ | hkey
  · simpa [sourceKeys, tableKeys, zipIdx_eq_nil_iff] using ref.table.keyColumns_ne_nil
  · obtain ⟨key, hkey⟩ := isSome_iff_exists.mp hkey
    cases source <;> simp_all [sourceKeys, lpGetOutputKey]

section Optimised

variable {plan plan' : LogicalPlan} {state later : OptimizerState}

theorem lpGetOutputKey_expandArms (arms : List LogicalPlan) (newPlan : LogicalPlan) (copies : ℕ) :
    lpGetOutputKey (expandArms plan arms newPlan copies).1 = lpGetOutputKey newPlan := by
  induction arms generalizing newPlan copies with
  | nil => rfl
  | cons arm arms ih => exact ih _ _

theorem isSet_expandArms {arms : List LogicalPlan} (harms : arms ≠ []) (newPlan : LogicalPlan)
    (copies : ℕ) : ∃ option plan0 plan1, (expandArms plan arms newPlan copies).1 =
    .setOperation option plan0 plan1 := by
  induction arms generalizing newPlan copies with
  | nil => exact absurd rfl harms
  | cons arm arms ih =>
    cases arms with
    | nil => exact ⟨_, _, _, rfl⟩
    | cons next rest => exact ih (cons_ne_nil _ _) _ _

/-- What the optimiser makes of a plan writes to the same output key, and is a
set operation where the plan is one or is split. -/
theorem optimizeLogicalPlan_source {fuel : ℕ}
    (hrun : optimizeLogicalPlan fuel plan state = some (plan', later)) :
    lpGetOutputKey plan' = lpGetOutputKey plan ∧ (becomesSet plan = true ↔
        ∃ option plan0 plan1, plan' = .setOperation option plan0 plan1) := by
  induction fuel generalizing plan state plan' later with
  | zero => cases hrun
  | succ fuel ih =>
    cases plan with
    | setOperation option plan0 plan1 =>
      simp only [optimizeLogicalPlan, bind_some_iff, some.injEq, Prod.mk.injEq] at hrun
      obtain ⟨⟨left, middle⟩, hleft, right, -, rfl, -⟩ := hrun
      exact ⟨(ih hleft).1, by simp [becomesSet]⟩
    | insert columns tableJoin whereCond orderBy keys keywords output =>
      simp only [optimizeLogicalPlan, bind_some_iff] at hrun
      obtain ⟨⟨join, keys, middle⟩, -, cond, hcond, hrun⟩ := hrun
      simp only [becomesSet, hcond, expandOrFix] at hrun ⊢
      split at hrun
      · rename_i cur hsplit
        simp only [bind_some_iff, some.injEq, Prod.mk.injEq] at hrun
        obtain ⟨criteria, -, rfl, -⟩ := hrun
        simp [hsplit, lpGetOutputKey]
      · rename_i arms cur hne hsplit
        obtain ⟨hkey, hset⟩ := ih hrun
        have harms : arms ≠ [] := hne
        obtain ⟨option, plan0, plan1, hexpand⟩ := isSet_expandArms harms _ _
        rw [hkey, lpGetOutputKey_expandArms]
        rw [hexpand] at hset
        simpa [hsplit, harms, lpGetOutputKey, becomesSet] using hset
    | _ => cases hrun

end Optimised

/-- The sources that `join_tables` comes to. -/
def joinedSources : List LogicalPlan → List LogicalPlan
  | [] => []
  | source :: rest =>
    source :: if becomesSet source then [] else joinedSources rest

section Keys

variable {fuel : ℕ} {keys keys' : List SqlKey} {join : LogicalPlan}
  {state later : OptimizerState} {sources : List LogicalPlan}

theorem joinSetOperation_keys {option : SetOption} {plan0 plan1 next : LogicalPlan}
    (hrun : joinSetOperation (optimizeLogicalPlan fuel) option plan0 plan1 next
    keys state = some (join, keys', later)) : keys' = keys ++ (lpGetOutputKey plan0).toList := by
  simp only [joinSetOperation, bind_some_iff, some.injEq, Prod.mk.injEq] at hrun
  obtain ⟨left, hleft, right, -, output, houtput, -, rfl, -⟩ := hrun
  rw [← (optimizeLogicalPlan_source hleft).1, houtput]
  rfl

theorem joinTables_keys (hsources : ∀ source ∈ sources, IsSource source)
    (hrun : joinTables (optimizeLogicalPlan fuel) (tableJoinOf sources) keys
      state = some (join, keys', later)) :
    keys' = keys ++ (joinedSources sources).flatMap sourceKeys := by
  induction sources generalizing keys state join keys' later with
  | nil =>
    simp only [tableJoinOf, foldr_nil, joinTables, some.injEq, Prod.mk.injEq] at hrun
    simp [joinedSources, hrun.2.1]
  | cons source sources ih =>
    obtain ⟨hsource, hrest⟩ := forall_mem_cons.mp hsources
    change joinTables _ (.node .tableJoin source (tableJoinOf sources)) _ _ = _ at hrun
    cases source with
    | table ref =>
      simp only [joinTables, bind_some_iff, some.injEq, Prod.mk.injEq] at hrun
      obtain ⟨⟨next, keys, after⟩, hnext, -, rfl, -⟩ := hrun
      rw [ih hrest hnext]
      simp [joinedSources, becomesSet, sourceKeys]
    | setOperation option plan0 plan1 =>
      rw [joinSetOperation_keys hrun]
      simp [joinedSources, becomesSet, sourceKeys, lpGetOutputKey]
    | insert columns tableJoin whereCond orderBy subKeys keywords output =>
      simp only [joinTables, bind_some_iff] at hrun
      obtain ⟨⟨plan, middle⟩, hplan, hrun⟩ := hrun
      obtain ⟨hkey, hset⟩ := optimizeLogicalPlan_source hplan
      cases plan with
      | setOperation option plan0 plan1 =>
        have hsplit := hset.mpr ⟨option, plan0, plan1, rfl⟩
        have hkey' : lpGetOutputKey plan0 = some output := hkey
        rw [joinSetOperation_keys hrun]
        simp [joinedSources, hsplit, sourceKeys, lpGetOutputKey, hkey']
      | insert =>
        simp only [bind_some_iff, some.injEq, Prod.mk.injEq] at hrun
        obtain ⟨⟨next, keys, after⟩, hnext, -, rfl, -⟩ := hrun
        rw [ih hrest hnext]
        simp_all [joinedSources, sourceKeys, lpGetOutputKey]
      | _ => cases hrun
    | _ => simp [IsSource, lpGetOutputKey] at hsource

/-- The keys of a plan are those of the tables it joins, one after the
other. -/
theorem joinTables_joins_every_key_iff (hsources : ∀ source ∈ sources, IsSource source)
    (hrun : joinTables (optimizeLogicalPlan fuel) (tableJoinOf sources) []
    state = some (join, keys, later)) : keys = sources.flatMap sourceKeys ↔
    ∀ source ∈ sources.dropLast, becomesSet source = false := by
  rw [joinTables_keys hsources hrun, nil_append]
  clear hrun
  induction sources with
  | nil => simp [joinedSources]
  | cons source sources ih =>
    obtain ⟨-, hrest⟩ := forall_mem_cons.mp hsources
    cases sources with
    | nil => cases hset : becomesSet source <;> simp [joinedSources, hset]
    | cons next sources =>
      cases hset : becomesSet source with
      | false =>
        rw [joinedSources, hset]
        simpa [hset] using ih hrest
      | true =>
        have hnext := sourceKeys_ne_nil (hrest next mem_cons_self)
        simp [joinedSources, hset, hnext]

end Keys

namespace JoinExample

def table (uniqueId : ℕ) : SqlTableAlias :=
  ⟨⟨"T", [⟨"id"⟩], [⟨"id"⟩], idColumn_ne_nil⟩, uniqueId⟩

def stored (uniqueId : ℕ) : LogicalPlan := .table (table uniqueId)

def selectPlan (whereCond : LogicalPlan) : LogicalPlan :=
  .insert .null (.node .tableJoin (stored 1) .null) whereCond .null [] []
    ⟨none, 0, 9, none, .advance, false, none⟩

def idEquals (text : String) : LogicalPlan :=
  .node .booleanEquals (.columnAlias ⟨table 1, ⟨"id"⟩⟩) (.value ⟨.numberLiteral, text⟩)

def selectOr : LogicalPlan :=
  selectPlan (.node .booleanOr (idEquals "1") (idEquals "2"))

end JoinExample

open JoinExample

theorem derived_table_and_table_are_joined : ∃ join keys later, joinTables (optimizeLogicalPlan 2)
    (tableJoinOf [selectPlan .null, stored 3]) [] ⟨9, 0⟩ = some (join, keys, later) ∧
    keys = [selectPlan .null, stored 3].flatMap sourceKeys := by
  obtain ⟨⟨join, keys, later⟩, hrun⟩ : ∃ result,
      joinTables (optimizeLogicalPlan 2) (tableJoinOf [selectPlan .null, stored 3])
        [] ⟨9, 0⟩ = some result := ⟨_, rfl⟩
  refine ⟨join, keys, later, hrun, (joinTables_joins_every_key_iff ?_ hrun).mpr (by decide)⟩
  simp [IsSource, stored, selectPlan, lpGetOutputKey]

/-- `FROM (SELECT id FROM T WHERE id = 1 OR id = 2) a CROSS JOIN T`: the derived
table is split into a union, and the key of the table is missing. -/
theorem table_behind_set_operation_is_not_joined :
    ∃ join keys later, joinTables (optimizeLogicalPlan 3)
        (tableJoinOf [selectOr, stored 3]) [] ⟨9, 0⟩ = some (join, keys, later) ∧
      keys = sourceKeys selectOr ∧ sourceKeys (stored 3) ≠ [] :=
  ⟨_, _, _, rfl, rfl, by decide⟩

end Octo
