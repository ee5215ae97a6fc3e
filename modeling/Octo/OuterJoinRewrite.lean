/-
Outer joins.  `generate_logical_plan` replaces the first outer join of a SELECT
by set operations: the SELECT with an inner join in its place, UNION ALL the
SELECT without one of the two tables, whose columns are null there, EXCEPT ALL
the projection of the inner join to the same columns.
-/
import Octo.TableReferences

namespace Octo

open SqlStatement List

/-- A SELECT: `table_alias` with its `select`, unpacked. -/
structure SelectQuery where
  selectList : SqlStatement
  tableList : SqlStatement
  whereExpression : SqlStatement
  orderExpression : SqlStatement
  optionalWords : SqlStatement
  setOperation : SqlStatement
  aliasName : SqlStatement
  uniqueId : ℕ
  columnList : SqlStatement

namespace SelectQuery

def statement (query : SelectQuery) : SqlStatement :=
  .tableAlias (.select query.selectList query.tableList query.whereExpression
    query.orderExpression query.optionalWords query.setOperation)
    query.aliasName query.uniqueId query.columnList

def copy (query : SelectQuery) : Option SelectQuery := do
  let selectList ← copySqlStatement query.selectList
  let tableList ← copySqlStatement query.tableList
  let whereExpression ← copySqlStatement query.whereExpression
  return { query with selectList, tableList, whereExpression }

def withTables (query : SelectQuery) (tableList : SqlStatement) :
    SelectQuery :=
  { query with tableList }

def withList (query : SelectQuery) (selectList : SqlStatement) : SelectQuery :=
  { query with selectList }

end SelectQuery

namespace SqlStatement

/-- The first outer join of a FROM clause and the table it joins. -/
def firstOuter : SqlStatement → Option (JoinType × ℕ)
  | join type source _ next =>
    if type.isOuter then source.uniqueId.map fun id => (type, id)
    else firstOuter next
  | _ => none

/-- The first outer join becomes an inner join. -/
def makeInner : SqlStatement → SqlStatement
  | join type source condition next =>
    if type.isOuter then join .innerJoin source condition next
    else join type source condition (makeInner next)
  | other => other

/-- The first join of the type is taken out of the list. -/
def unlinkJoin (type : JoinType) : SqlStatement → SqlStatement
  | join kind source condition next =>
    if kind = type then next
    else join kind source condition (unlinkJoin type next)
  | other => other

/-- The table before the first join of the type is taken out of the list, and
the join takes over its type and condition. -/
def unlinkBefore (type : JoinType) : SqlStatement → SqlStatement
  | join kind source condition (join kind' source' condition' next) =>
    if kind' = type then join kind source' condition next
    else join kind source condition (unlinkBefore type (join kind' source' condition' next))
  | other => other

/-- The table before the first join of the type. -/
def tableBefore (type : JoinType) : SqlStatement → Option ℕ
  | join _ source _ (join kind' source' condition' next) =>
    if kind' = type then source.uniqueId
    else tableBefore type (join kind' source' condition' next)
  | _ => none

/-- The tables whose ids `update_table_references` changes in a statement, also
in what its references mean. -/
def updatedTables : SqlStatement → List ℕ
  | columnAlias referred tableId => tableId :: updatedTables referred
  | binary _ operand0 operand1 =>
    updatedTables operand0 ++ updatedTables operand1
  | unary _ operand => updatedTables operand
  | functionCall label parameters =>
    updatedTables label ++ updatedTables parameters
  | cas subject branches _ => updatedTables subject ++ updatedTables branches
  | casBranch condition result next =>
    updatedTables condition ++ (updatedTables result ++ updatedTables next)
  | columnList entry next => updatedTables entry ++ updatedTables next
  | columnListAlias entries _ _ _ next =>
    updatedTables entries ++ updatedTables next
  | tableAlias source _ id _ => id :: updatedTables source
  | join _ source condition next =>
    updatedTables source ++ (updatedTables condition ++ updatedTables next)
  | select selectList tableList whereExpression orderExpression _ _ =>
    updatedTables selectList ++ (updatedTables tableList ++
      (updatedTables whereExpression ++ updatedTables orderExpression))
  | _ => []

end SqlStatement

/-- The preserved side: a copy without one table, with new ids, in which the
references to the table are null. -/
def preservedSide (query : SelectQuery) (unlink : SqlStatement → SqlStatement)
    (removed planId : ℕ) : Option (SqlStatement × ℕ) := do
  let copy ← query.copy
  let preserved := copy.withTables (unlink copy.tableList)
  let (stmt, planId) ← renumberTables preserved.tableList.tableIds preserved.statement planId
  let stmt ← replaceTableReferences removed false stmt
  return (stmt, planId)

def nulledList (nulled : Option ℕ) (selectList : SqlStatement) : Option SqlStatement :=
  match nulled with
  | some id => replaceTableReferences id false selectList
  | none => some selectList

/-- The projected inner join: a copy with new ids, in whose select list the
references to the table are null. -/
def projectedJoin (inner : SelectQuery) (nulled : Option ℕ) (planId : ℕ) :
    Option (SqlStatement × ℕ) := do
  let copy ← inner.copy
  let selectList ← nulledList nulled copy.selectList
  renumberTables copy.tableList.tableIds (copy.withList selectList).statement planId

/-- `preserved EXCEPT ALL projected`. -/
def exceptPart (query inner : SelectQuery) (unlink : SqlStatement → SqlStatement) (removed : ℕ)
    (nulled : Option ℕ) (planId : ℕ) : Option (SqlStatement × ℕ) := do
  let (preserved, planId) ← preservedSide query unlink removed planId
  let (projected, planId) ← projectedJoin inner nulled planId
  return (.setOperation .exceptAll preserved projected, planId)

/-- The part of `generate_logical_plan` that replaces the first outer join;
none if there is none or a helper stops the process.  `shared` says that the
statement is as the parser made it: its `column_list` is its select list, and
its ORDER BY refers to its own tables.  For the second half of a FULL JOIN the
nulls of the first half are then already in the select list, and if ORDER BY
comes to the table on the left, its id is no longer the one that the select
list of the copy has. -/
def generateOuterJoin (shared : Bool) (query : SelectQuery) (planId : ℕ) :
    Option (SqlStatement × ℕ) := do
  let (type, right) ← query.tableList.firstOuter
  let inner ← (query.withTables query.tableList.makeInner).copy
  match type with
  | .leftJoin =>
    let (part, planId) ← exceptPart query inner (unlinkJoin type) right (some right) planId
    return (.setOperation .unionAll inner.statement part, planId)
  | .rightJoin =>
    let left ← query.tableList.tableBefore type
    let (part, planId) ← exceptPart query inner (unlinkBefore type) left (some left) planId
    return (.setOperation .unionAll inner.statement part, planId)
  | _ =>
    let left ← query.tableList.tableBefore type
    let (part, planId) ← exceptPart query inner (unlinkJoin type) right (some right) planId
    let selectList ← nulledList (if shared then some right else none) query.selectList
    let renamed := shared && left ∈ query.orderExpression.updatedTables
    let (part', planId) ← exceptPart (query.withList selectList) inner
      (unlinkBefore type) left (if renamed then none else some left) planId
    return (.setOperation .unionAll inner.statement (.setOperation .unionAll part part'), planId)

namespace SqlStatement

/-- The ids in a table of a FROM clause, but its own. -/
def nestedSource : SqlStatement → List (Bool × ℕ)
  | tableAlias source _ _ _ => source.occurrences
  | other => other.occurrences

/-- The ids in a FROM clause, but those of its tables. -/
def nestedTables : SqlStatement → List (Bool × ℕ)
  | join _ source condition next =>
    source.nestedSource ++ (condition.occurrences ++ nestedTables next)
  | other => other.occurrences

variable {s : SqlStatement} {replaced updated whole : Bool} {k : Mark}

theorem mem_occurrences_of_mem_marks (hk : k ∈ s.marks updated replaced whole) :
    (k.isReference, k.id) ∈ s.occurrences := by
  rw [← s.marks_map_occurrence updated replaced whole]
  exact mem_map.mpr ⟨k, hk, rfl⟩

theorem exists_mark_of_mem_occurrences {o : Bool × ℕ}
    (ho : o ∈ s.occurrences) (updated replaced whole : Bool) :
    ∃ k ∈ s.marks updated replaced whole, k.isReference = o.1 ∧ k.id = o.2 := by
  rw [← s.marks_map_occurrence updated replaced whole] at ho
  obtain ⟨k, hk, rfl⟩ := mem_map.mp ho
  exact ⟨k, hk, rfl, rfl⟩

theorem mem_nestedSource_of_mark (hk : k ∈ s.marks true replaced whole)
    (hown : k.updated → k.isReference = false → s.uniqueId ≠ some k.id) :
    (k.isReference, k.id) ∈ s.nestedSource := by
  cases s with
  | tableAlias source a id l =>
    rcases mem_cons.mp hk with rfl | hk
    · exact absurd rfl (hown rfl rfl)
    · exact mem_occurrences_of_mem_marks hk
  | _ => exact mem_occurrences_of_mem_marks hk

/-- Ids that the walk does not come to, references, and ids of other tables lie
below the tables of a FROM clause. -/
theorem mem_nestedTables_of_mark (hk : k ∈ s.marks true replaced whole)
    (hown : k.updated → k.isReference = false → k.id ∉ s.tableIds) :
    (k.isReference, k.id) ∈ s.nestedTables := by
  induction s generalizing replaced whole with
  | join t x y z _ _ ihz =>
    simp only [tableIds, mem_append, Option.mem_toList, not_or] at hown
    simp only [marks, mem_append] at hk
    simp only [nestedTables, mem_append]
    rcases hk with hk | hk | hk
    · refine .inl (mem_nestedSource_of_mark hk fun hup href => ?_)
      exact (hown hup href).1
    · exact .inr (.inl (mem_occurrences_of_mem_marks hk))
    · exact .inr (.inr (ihz hk fun hup href => (hown hup href).2))
  | _ => exact mem_occurrences_of_mem_marks hk

/-- What the first walk does not come to, the second does not either. -/
theorem replaced_of_updated (hflags : replaced → updated) (hk : k ∈ s.marks updated replaced whole)
    (hup : k.updated = false) : k.replaced = false := by
  induction s generalizing updated replaced whole <;>
    simp only [marks, mem_append, mem_cons, not_mem_nil, or_false] at hk <;>
    grind

end SqlStatement

/-- Taking one table out of a FROM clause. -/
structure Unlinks (unlink : SqlStatement → SqlStatement) (removed : ℕ)
    (tables : SqlStatement) : Prop where
  mem : removed ∈ tables.tableIds
  not_mem : removed ∉ (unlink tables).tableIds
  subset : (unlink tables).tableIds ⊆ tables.tableIds
  rest : ∀ i ∈ tables.tableIds, i ∈ (unlink tables).tableIds ∨ i = removed
  nested : (unlink tables).nestedTables ⊆ tables.nestedTables
  marks : (unlink tables).marks true true false ⊆ tables.marks true true false
  inScope : ∀ scope, tables.inScope scope → (unlink tables).inScope scope
  rewritten : ∀ copy, Rewritten some id tables copy →
    Rewritten some id (unlink tables) (unlink copy)

variable {type : JoinType} {tables : SqlStatement}

theorem Rewritten.join_inv {ref : ℕ → Option ℕ} {bind : ℕ → ℕ} {x y z t : SqlStatement}
    (hrw : Rewritten ref bind (.join type x y z) t) :
    ∃ x' y' z', t = .join type x' y' z' ∧ Rewritten ref bind x x' ∧
    Rewritten ref bind y y' ∧ Rewritten ref bind z z' := by
  cases hrw with
  | leaf hleaf => cases hleaf
  | join hx hy hz => exact ⟨_, _, _, rfl, hx, hy, hz⟩

theorem isOuter_of_firstOuter {right : ℕ} (h : tables.firstOuter = some (type, right)) :
    type.isOuter := by
  induction tables with
  | join kind x y z _ _ ihz =>
    simp only [firstOuter] at h
    split_ifs at h with houter
    · obtain ⟨id, -, ⟨⟩⟩ := Option.map_eq_some_iff.mp h
      exact houter
    · exact ihz h
  | _ => cases h

/-- A table further down the FROM clause is taken out. -/
theorem Unlinks.cons {unlink : SqlStatement → SqlStatement} {removed : ℕ} {kind : JoinType}
    {x y z : SqlStatement} (hz : Unlinks unlink removed z)
    (hnodup : (join kind x y z).tableIds.Nodup) (hunlink : ∀ x' y' z', Rewritten some id z z' →
    unlink (.join kind x' y' z') = .join kind x' y' (unlink z')) :
    Unlinks unlink removed (.join kind x y z) := by
  have hself : Rewritten some id z z := .refl fun o _ => by
    rcases o with ⟨_ | _, i⟩ <;> rfl
  have heq := hunlink x y z hself
  have hright : ∀ {α : Type} (l l₁ l₂ : List α), l₁ ⊆ l₂ → l ++ l₁ ⊆ l ++ l₂ := fun l l₁ l₂ h =>
    append_subset.mpr ⟨subset_append_left _ _, subset_append_of_subset_right _ h⟩
  obtain ⟨hnx, hnz, hdisjoint⟩ := nodup_append.mp hnodup
  refine ⟨?_, ?_, ?_, ?_, ?_, ?_, ?_, ?_⟩
  · exact mem_append_right _ hz.mem
  · rw [heq, tableIds, mem_append, not_or]
    exact ⟨fun hx => hdisjoint removed hx removed hz.mem rfl, hz.not_mem⟩
  · rw [heq]
    exact hright _ _ _ hz.subset
  · intro i hi
    rw [heq, tableIds, mem_append]
    rcases mem_append.mp hi with hi | hi
    · exact .inl (.inl hi)
    · exact (hz.rest i hi).imp_left .inr
  · rw [heq]
    exact hright _ _ _ (hright _ _ _ hz.nested)
  · rw [heq]
    exact hright _ _ _ (hright _ _ _ hz.marks)
  · intro scope hscope
    rw [heq]
    exact ⟨hscope.1, hscope.2.1, hz.inScope scope hscope.2.2⟩
  · intro copy hrw
    obtain ⟨x', y', z', rfl, hx, hy, hrz⟩ := hrw.join_inv
    rw [heq, hunlink x' y' z' hrz]
    exact .join hx hy (hz.rewritten z' hrz)

/-- The first outer join, whose type no join before it has, is taken out. -/
theorem unlinks_unlinkJoin {right : ℕ} (h : tables.firstOuter = some (type, right))
    (hnodup : tables.tableIds.Nodup) : Unlinks (unlinkJoin type) right tables := by
  have hisOuter := isOuter_of_firstOuter h
  induction tables with
  | join kind x y z _ _ ihz =>
    simp only [firstOuter] at h
    split_ifs at h with houter
    · obtain ⟨id, hid, heq⟩ := Option.map_eq_some_iff.mp h
      obtain ⟨rfl, rfl⟩ := Prod.mk.inj heq
      have hunlink : unlinkJoin kind (.join kind x y z) = z := if_pos rfl
      have hids : (join kind x y z).tableIds = id :: z.tableIds := by
        simp [tableIds, hid]
      rw [hids, nodup_cons] at hnodup
      refine ⟨?_, ?_, ?_, ?_, ?_, ?_, ?_, ?_⟩ <;>
        simp only [hunlink, hids]
      · exact mem_cons_self
      · exact hnodup.1
      · exact subset_cons_self _ _
      · exact fun i hi => (mem_cons.mp hi).symm
      · exact subset_append_of_subset_right _ (subset_append_right _ _)
      · exact subset_append_of_subset_right _ (subset_append_right _ _)
      · exact fun scope hscope => hscope.2.2
      · intro copy hrw
        obtain ⟨x', y', z', rfl, hx, hy, hz⟩ := hrw.join_inv
        rw [unlinkJoin, if_pos rfl]
        exact hz
    · have hne : kind ≠ type := by
        rintro rfl
        exact houter hisOuter
      have hnz := (nodup_append.mp hnodup).2.1
      exact (ihz h hnz).cons hnodup fun x' y' z' _ => if_neg hne
  | _ => cases h

/-- The table before the join is taken out. -/
theorem unlinks_unlinkBefore {left : ℕ} (h : tables.tableBefore type = some left)
    (hnodup : tables.tableIds.Nodup) : Unlinks (unlinkBefore type) left tables := by
  induction tables with
  | join kind x y z _ _ ihz =>
    cases z with
    | join kind' x' y' z =>
      simp only [tableBefore] at h
      split_ifs at h with hkind
      · have hunlink : unlinkBefore type (.join kind x y (.join kind' x' y' z)) =
            .join kind x' y z := if_pos hkind
        have hids : (join kind x y (.join kind' x' y' z)).tableIds =
            left :: (join kind x' y z).tableIds := by
          simp [tableIds, h]
        rw [hids, nodup_cons] at hnodup
        refine ⟨?_, ?_, ?_, ?_, ?_, ?_, ?_, ?_⟩ <;>
          simp only [hunlink, hids]
        · exact mem_cons_self
        · exact hnodup.1
        · exact subset_cons_self _ _
        · exact fun i hi => (mem_cons.mp hi).symm
        · intro o ho
          simp only [nestedTables, mem_append] at ho ⊢
          tauto
        · intro k hk
          simp only [SqlStatement.marks, mem_append] at hk ⊢
          tauto
        · intro scope hscope
          exact ⟨hscope.2.2.1, hscope.2.1, hscope.2.2.2.2⟩
        · intro copy hrw
          obtain ⟨u, v, w, rfl, hx, hy, hz⟩ := hrw.join_inv
          obtain ⟨u', v', w', rfl, hx', hy', hz'⟩ := hz.join_inv
          rw [unlinkBefore, if_pos hkind]
          exact .join hx' hy hz'
      · have hnz := (nodup_append.mp hnodup).2.1
        refine (ihz h hnz).cons hnodup fun u v w hw => ?_
        obtain ⟨u', v', w', rfl, -⟩ := hw.join_inv
        exact if_neg hkind
    | _ => cases h
  | _ => cases h

end Octo
