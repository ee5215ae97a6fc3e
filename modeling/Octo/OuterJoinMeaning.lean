/-
What the statement that replaces an outer join denotes: the outer join, exactly
if, row by row, the preserved side less the projected inner join makes up for
what the inner join lacks.
-/
import Octo.OuterJoinRewrite

namespace Octo

open SqlStatement List
open Option hiding map_id

namespace SqlStatement

theorem tableIds_makeInner (tables : SqlStatement) :
    tables.makeInner.tableIds = tables.tableIds := by
  induction tables with
  | join kind x y z _ _ ihz =>
    rw [makeInner]
    split_ifs
    · rfl
    · simp [tableIds, ihz]
  | _ => rfl

theorem marks_makeInner (tables : SqlStatement) (updated replaced whole : Bool) :
    tables.makeInner.marks updated replaced whole = tables.marks updated replaced whole := by
  induction tables generalizing whole with
  | join kind x y z _ _ ihz =>
    rw [makeInner]
    split_ifs
    · rfl
    · simp only [marks, ihz]
  | _ => rfl

theorem nestedTables_makeInner (tables : SqlStatement) :
    tables.makeInner.nestedTables = tables.nestedTables := by
  induction tables with
  | join kind x y z _ _ ihz =>
    rw [makeInner]
    split_ifs
    · rfl
    · simp [nestedTables, ihz]
  | _ => rfl

theorem inScope.makeInner {tables : SqlStatement} {scope : List ℕ}
    (hscope : tables.inScope scope) : tables.makeInner.inScope scope := by
  induction tables with
  | join kind x y z _ _ ihz =>
    rw [SqlStatement.makeInner]
    split_ifs
    · exact hscope
    · exact ⟨hscope.1, hscope.2.1, ihz hscope.2.2⟩
  | _ => exact hscope

theorem rewritten_refl (s : SqlStatement) : Rewritten some id s s :=
  .refl fun o _ => by rcases o with ⟨_ | _, i⟩ <;> rfl

theorem inScope.mono {s : SqlStatement} {scope scope' : List ℕ}
    (hs : s.inScope scope) (hsubset : scope ⊆ scope') : s.inScope scope' := by
  refine s.rewritten_refl.inScope (fun _ _ _ => rfl) (fun i hi j hj => ?_) hs
  cases hj
  exact hsubset hi

end SqlStatement

namespace SelectQuery

/-- The ids in a SELECT, but those of its tables. -/
def nested (query : SelectQuery) : List (Bool × ℕ) :=
  (false, query.uniqueId) :: (query.selectList.occurrences ++
    (query.tableList.nestedTables ++ query.whereExpression.occurrences))

theorem mem_nested_of_mark {query : SelectQuery} {k : Mark} (hk : k ∈ query.statement.allMarks)
    (hown : k.updated → k.isReference = false → k.id ∉ query.tableList.tableIds) :
    (k.isReference, k.id) ∈ query.nested := by
  rcases mem_cons.mp hk with rfl | hk
  · exact mem_cons_self
  · refine mem_cons_of_mem _ ?_
    rcases mem_append.mp hk with hk | hk
    · exact mem_append_left _ (mem_occurrences_of_mem_marks hk)
    · refine mem_append_right _ ?_
      rcases mem_append.mp hk with hk | hk
      · exact mem_append_left _ (mem_nestedTables_of_mark hk hown)
      · exact mem_append_right _ (mem_occurrences_of_mem_marks hk)

/-- Every reference to a table of the SELECT is found when the tables get new
ids. -/
def Renumbers (query : SelectQuery) : Prop :=
  ∀ k ∈ query.statement.allMarks, k.updated = false → k.isReference →
    k.id ∉ query.tableList.tableIds

/-- Every reference to the table is found when nulls are put in its place. -/
def Replaces (query : SelectQuery) (removed : ℕ) : Prop :=
  ∀ k ∈ query.statement.allMarks, k.replaced = false → k.isReference → k.id ≠ removed

end SelectQuery

/-- A SELECT as the parser and `qualify_query` leave it, below the tables of
the scope: every reference has its table, and all ids differ and are below the
next one. -/
structure Qualified (scope : List ℕ) (planId : ℕ) (query : SelectQuery) : Prop where
  inScope : query.statement.inScope scope
  lt : ∀ o ∈ query.statement.occurrences, o.2 < planId
  scope_lt : ∀ i ∈ scope, i < planId
  nodup : query.tableList.tableIds.Nodup
  not_mem_scope : ∀ i ∈ query.tableList.tableIds, i ∉ scope
  nested : ∀ i ∈ query.tableList.tableIds, (false, i) ∉ query.nested

namespace Qualified

variable {scope : List ℕ} {planId : ℕ} {query : SelectQuery} (hq : Qualified scope planId query)
include hq

theorem mark_lt {k : Mark} (hk : k ∈ query.statement.allMarks) : k.id < planId :=
  hq.lt _ (mem_occurrences_of_mem_marks hk)

theorem mem_lt {i : ℕ} (hi : i ∈ query.tableList.tableIds) : i < planId := by
  have hmem := mem_occurrences_of_mem_tableIds hi
  refine hq.lt (false, i) ?_
  simp [SelectQuery.statement, occurrences, hmem]

/-- Only references can be missed: the tables themselves are in reach. -/
theorem not_mem_of_hidden {k : Mark} (hk : k ∈ query.statement.allMarks) (hup : k.updated = false)
    (href : k.isReference → k.id ∉ query.tableList.tableIds) : k.id ∉ query.tableList.tableIds := by
  cases hkind : k.isReference with
  | true => exact href hkind
  | false =>
    intro hi
    have hmem := SelectQuery.mem_nested_of_mark hk
      fun h => absurd (hup.symm.trans h) Bool.false_ne_true
    rw [hkind] at hmem
    exact hq.nested _ hi hmem

end Qualified

section Preserved

variable {scope : List ℕ} {planId : ℕ} {query : SelectQuery}
  {unlink : SqlStatement → SqlStatement} {removed : ℕ}

/-- The statement with one table less. -/
def unlinked (query : SelectQuery) (unlink : SqlStatement → SqlStatement) :
    SelectQuery :=
  query.withTables (unlink query.tableList)

theorem append_subset_append {α : Type*} {a b c d : List α} (hac : a ⊆ c) (hbd : b ⊆ d) :
    a ++ b ⊆ c ++ d :=
  append_subset_of_subset_of_subset (subset_append_of_subset_left _ hac)
    (subset_append_of_subset_right _ hbd)

theorem Unlinks.allMarks_subset (hunlink : Unlinks unlink removed query.tableList) :
    (unlinked query unlink).statement.allMarks ⊆
      query.statement.allMarks := by
  apply cons_subset_cons
  exact append_subset_append (Subset.refl _) (append_subset_append hunlink.marks (Subset.refl _))

variable (hq : Qualified scope planId query) (hunlink : Unlinks unlink removed query.tableList)
include hq hunlink

/-- The table that is taken out is nowhere else. -/
theorem Unlinks.not_mem_binders :
    (false, removed) ∉ (unlinked query unlink).statement.occurrences := by
  intro hmem
  obtain ⟨k, hk, hkind, hid⟩ :=
    exists_mark_of_mem_occurrences hmem true true false
  have hown : k.id ∉ (unlink query.tableList).tableIds := by
    rw [hid]
    exact hunlink.not_mem
  have hnested := SelectQuery.mem_nested_of_mark hk fun _ _ => hown
  rw [hkind, hid] at hnested
  refine hq.nested removed hunlink.mem ?_
  rcases mem_cons.mp hnested with heq | hnested
  · rw [heq]
    exact mem_cons_self
  · refine mem_cons_of_mem _ ?_
    rcases mem_append.mp hnested with hsl | hnested
    · exact mem_append_left _ hsl
    · refine mem_append_right _ ?_
      rcases mem_append.mp hnested with htl | hw
      · exact mem_append_left _ (hunlink.nested htl)
      · exact mem_append_right _ hw

theorem Unlinks.inScope_unlinked :
    (unlinked query unlink).statement.inScope (removed :: scope) := by
  have hsubset : query.tableList.tableIds ++ scope ⊆
      (unlink query.tableList).tableIds ++ removed :: scope := by
    intro i hi
    rcases mem_append.mp hi with hi | hi
    · rcases hunlink.rest i hi with hrest | rfl
      · exact mem_append_left _ hrest
      · exact mem_append_right _ mem_cons_self
    · exact mem_append_right _ (mem_cons_of_mem _ hi)
  obtain ⟨hsl, htl, hw⟩ := hq.inScope
  exact ⟨hsl.mono hsubset, hunlink.inScope _ (htl.mono hsubset), hw.mono hsubset⟩

end Preserved

/-- A copy of a SELECT; ORDER BY is not looked at. -/
structure IsCopy (query copy : SelectQuery) : Prop where
  selectList : Rewritten some id query.selectList copy.selectList
  tableList : Rewritten some id query.tableList copy.tableList
  whereExpression : Rewritten some id query.whereExpression copy.whereExpression
  optionalWords : copy.optionalWords = query.optionalWords
  aliasName : copy.aliasName = query.aliasName
  uniqueId : copy.uniqueId = query.uniqueId

section Copies

variable {query copy : SelectQuery}

theorem isCopy_of_copy (h : query.copy = some copy) : IsCopy query copy := by
  simp only [SelectQuery.copy, Option.pure_def, bind_some_iff, Option.some.injEq] at h
  obtain ⟨selectList, hlist, tableList, htables, whereExpression, hwhere, rfl⟩ :=
    h
  exact ⟨copySqlStatement_rewritten hlist, copySqlStatement_rewritten htables,
    copySqlStatement_rewritten hwhere, rfl, rfl, rfl⟩

namespace IsCopy

variable (hcopy : IsCopy query copy)
include hcopy

theorem statement : Rewritten some id query.statement copy.statement := by
  unfold SelectQuery.statement
  rw [hcopy.optionalWords, hcopy.aliasName, hcopy.uniqueId]
  exact .tableAlias (i := query.uniqueId)
    (.select hcopy.selectList hcopy.tableList hcopy.whereExpression)

theorem allMarks : copy.statement.allMarks = query.statement.allMarks :=
  hcopy.statement.marks_of_some true true false

theorem tableIds : copy.tableList.tableIds = query.tableList.tableIds := by
  rw [hcopy.tableList.tableIds_eq, map_id]

theorem inScope {scope : List ℕ} (hscope : query.statement.inScope scope) :
    copy.statement.inScope scope := by
  refine hcopy.statement.inScope (fun _ _ _ => rfl) (fun i hi j hj => ?_) hscope
  cases hj
  exact hi

theorem unlinked {unlink : SqlStatement → SqlStatement} {removed : ℕ}
    (hunlink : Unlinks unlink removed query.tableList) :
    IsCopy (unlinked query unlink) (unlinked copy unlink) where
  selectList := hcopy.selectList
  tableList := hunlink.rewritten _ hcopy.tableList
  whereExpression := hcopy.whereExpression
  optionalWords := hcopy.optionalWords
  aliasName := hcopy.aliasName
  uniqueId := hcopy.uniqueId

end IsCopy

variable {V : Type} (I : Interpretation V)

/-- The environment in which one table holds no row. -/
def nulledEnv (nulled : Option ℕ) (env : Env V) : Env V :=
  match nulled with
  | some id => Function.update env id (nullRow I)
  | none => env

theorem readEnv_nullRef (id : ℕ) (env : Env V) :
    readEnv I (nullRef id) env = nulledEnv I (some id) env := by
  funext i
  unfold readEnv nullRef nulledEnv
  by_cases hi : i = id
  · simp [hi]
  · simp [hi]

variable [DecidableEq V] (db : Database V)

/-- The rows of a SELECT with nulls for one table in the select list. -/
def projectedRows (query : SelectQuery) (nulled : Option ℕ) (env : Env V) : Multiset (List V) :=
  I.words query.optionalWords (((joined I db query.tableList env [] (fun _ => true) {env}).filter
    fun tuple => query.whereExpression.isNull ||
    I.truth (evaluate I db query.whereExpression tuple)).map fun tuple =>
      evaluateList I db query.selectList (nulledEnv I nulled tuple))

variable {I db} {s t : SqlStatement}

/-- A copy means the same. -/
theorem Rewritten.sameMeaning_some (hrw : Rewritten some id s t) : SameMeaning I db some id s t :=
  hrw.sameMeaning fun _ _ _ => ⟨rfl, fun _ hi => some.inj hi⟩

theorem Rewritten.joined_some (hrw : Rewritten some id s t) (env : Env V) :
    joined I db t env [] (fun _ => true) {env} = joined I db s env [] (fun _ => true) {env} := by
  have hsame : SameMeaning I db some id s t := hrw.sameMeaning_some
  have htuples := hsame.tuples env [] (fun _ => true) (fun _ => true) {env}
    (fun _ hid => absurd hid not_mem_nil) fun _ => rfl
  have hread : readEnv I some = (id : Env V → Env V) := rfl
  rwa [hread, Multiset.map_id, Multiset.map_id] at htuples

/-- Nulls for a table that the statement itself does not have. -/
theorem Rewritten.sameMeaning_nullRef {old : ℕ} (hrw : Rewritten (nullRef old) id s t)
    (hbinders : (false, old) ∉ s.occurrences) : SameMeaning I db (nullRef old) id s t := by
  refine hrw.sameMeaning fun o ho hkind => ?_
  have hne : o.2 ≠ old := by
    intro hid
    exact hbinders (by rwa [← hkind, ← hid])
  refine ⟨if_neg hne, fun i hi => ?_⟩
  unfold nullRef at hi
  split_ifs at hi
  exact some.inj hi

theorem IsCopy.queryRows_eq (hcopy : IsCopy query copy) (env : Env V) :
    queryRows I db copy.statement env = queryRows I db query.statement env :=
  hcopy.statement.sameMeaning_some.rows env

theorem IsCopy.projectedRows_eq (hcopy : IsCopy query copy) (nulled : Option ℕ) (env : Env V) :
    projectedRows I db copy nulled env = projectedRows I db query nulled env := by
  have hwhere : SameMeaning I db some id _ _ :=
    hcopy.whereExpression.sameMeaning_some
  have hlist : SameMeaning I db some id _ _ := hcopy.selectList.sameMeaning_some
  unfold projectedRows
  rw [hcopy.optionalWords, hcopy.tableList.joined_some]
  simp only [hcopy.whereExpression.isNull_eq, hwhere.value, hlist.list]
  rfl

end Copies

section Replaced

variable {old : ℕ} {whole : Bool} {s t : SqlStatement}

theorem replaceTableReferences_tableIds (h : replaceTableReferences old whole s = some t) :
    t.tableIds = s.tableIds := by
  induction s generalizing t whole with
    try simp only [replaceTableReferences, Option.pure_def, bind_some_iff, Option.some.injEq] at h
  | join type x y z _ _ ihz =>
    obtain ⟨y', -, z', hz, rfl⟩ := h
    simp [tableIds, ihz hz]
  | columnAlias c i =>
    cases h
    split_ifs <;> rfl
  | setOperation | keyword | column => cases h
  | null | value | name | table | calculated | coerced =>
    cases h
    rfl
  | columnList x y =>
    cases whole <;>
      simp only [replaceTableReferences, Option.pure_def, bind_some_iff, Option.some.injEq] at h <;>
      grind [tableIds]
  | _ =>
    grind [tableIds]

/-- A reference that becomes null or stays is not out of scope. -/
theorem replaceTableReferences_inScope (h : replaceTableReferences old whole s = some t)
    {scope : List ℕ} (hs : s.inScope scope) : t.inScope scope := by
  induction s generalizing t whole scope with
    try simp only [replaceTableReferences, Option.pure_def, bind_some_iff, Option.some.injEq] at h
  | columnAlias c i =>
    cases h
    split_ifs
    · trivial
    · exact hs
  | setOperation | keyword | column => cases h
  | null | value | name | table | calculated | coerced =>
    cases h
    exact hs
  | columnList x y ihx ihy =>
    cases whole <;>
      simp only [replaceTableReferences, Option.pure_def, bind_some_iff, Option.some.injEq] at h
    · obtain ⟨x', hx, rfl⟩ := h
      exact ⟨ihx hx hs.1, hs.2⟩
    · obtain ⟨x', hx, y', hy, rfl⟩ := h
      exact ⟨ihx hx hs.1, ihy hy hs.2⟩
  | select x y z o w u ihx ihy ihz =>
    obtain ⟨x', hx, y', hy, z', hz, o', -, rfl⟩ := h
    have hids := replaceTableReferences_tableIds hy
    simp only [SqlStatement.inScope, hids]
    exact ⟨ihx hx hs.1, ihy hy hs.2.1, ihz hz hs.2.2⟩
  | _ =>
    grind [SqlStatement.inScope]

end Replaced

section Renumbered

variable {scope ids : List ℕ} {planId n m : ℕ} {query : SelectQuery} {s t : SqlStatement}

/-- What both operands of EXCEPT ALL have in common: their ids are those of the
query. -/
structure IsPart (query : SelectQuery) (planId : ℕ) (s : SqlStatement)
    (ids : List ℕ) (n : ℕ) : Prop where
  marks : s.allMarks ⊆ query.statement.allMarks
  ids : ids ⊆ query.tableList.tableIds
  le : planId ≤ n

variable (hq : Qualified scope planId query) (hpart : IsPart query planId s ids n)
include hq hpart

theorem IsPart.mark_lt {k : Mark} (hk : k ∈ s.allMarks) : k.id < n :=
  (hq.mark_lt (hpart.marks hk)).trans_le hpart.le

theorem IsPart.id_lt {i : ℕ} (hi : i ∈ ids) : i < n :=
  (hq.mem_lt (hpart.ids hi)).trans_le hpart.le

theorem IsPart.not_mem_of_renumbers (hrenumbers : query.Renumbers) {k : Mark}
    (hk : k ∈ s.allMarks) (hup : k.updated = false) : k.id ∉ ids := by
  intro hi
  refine hq.not_mem_of_hidden (hpart.marks hk) hup ?_ (hpart.ids hi)
  exact hrenumbers k (hpart.marks hk) hup

variable (h : renumberTables ids s n = some (t, m))
include h

theorem IsPart.inScope (hrenumbers : query.Renumbers) {scope' : List ℕ}
    (hscope : ∀ i ∈ scope', i ∉ ids ∧ i < planId) (hs : s.inScope scope') : t.inScope scope' :=
  renumberTables_inScope h (fun _ => hpart.mark_lt hq)
    (fun _ => hpart.not_mem_of_renumbers hq hrenumbers)
    (fun i hi => ⟨(hscope i hi).1, (hscope i hi).2.trans_le hpart.le⟩) hs

theorem IsPart.rows {V : Type} {I : Interpretation V} [DecidableEq V] {db : Database V}
    {env : Env V} (henv : ∀ i ∉ scope, env i = nullRow I) (hrenumbers : query.Renumbers) :
    queryRows I db t env = queryRows I db s env := by
  refine renumberTables_rows h (fun _ => hpart.mark_lt hq)
    (fun _ => hpart.not_mem_of_renumbers hq hrenumbers) (fun i hi => ?_)
    fun i hi => henv i fun hscope => ?_
  · exact henv i (hq.not_mem_scope i (hpart.ids hi))
  · have hlt := hq.scope_lt i hscope
    have hle := hpart.le
    omega

/-- A table with a new id is not left under its old one. -/
theorem IsPart.binder_not_mem {i : ℕ} (hi : i ∈ ids) : (false, i) ∉ t.occurrences := by
  intro hmem
  obtain ⟨k, hk, hkind, rfl⟩ :=
    exists_mark_of_mem_occurrences hmem true true false
  obtain ⟨hks, hkept⟩ := mem_allMarks_of_renumber h (fun _ => hpart.id_lt hq) hk (hpart.id_lt hq hi)
  have hup : k.updated = false := by
    cases hup : k.updated with
    | true => exact absurd hi (hkept hup)
    | false => rfl
  refine hq.not_mem_of_hidden (hpart.marks hks) hup (fun href => ?_) (hpart.ids hi)
  exact absurd (hkind.symm.trans href) Bool.false_ne_true

end Renumbered

section PreservedSide

variable {scope : List ℕ} {planId n m removed : ℕ} {query : SelectQuery}
  {unlink : SqlStatement → SqlStatement} {t : SqlStatement}

theorem preservedSide_cases (hunlink : Unlinks unlink removed query.tableList)
    (h : preservedSide query unlink removed n = some (t, m)) :
    ∃ copy r, IsCopy (unlinked query unlink) copy ∧
      renumberTables copy.tableList.tableIds copy.statement n = some (r, m) ∧
      replaceTableReferences removed false r = some t := by
  simp only [preservedSide, Option.pure_def, bind_some_iff,
    some.injEq, Prod.mk.injEq, Prod.exists] at h
  obtain ⟨copy, hcopy, r, m, hr, t, ht, rfl, rfl⟩ := h
  exact ⟨_, r, (isCopy_of_copy hcopy).unlinked hunlink, hr, ht⟩

theorem isPart_preserved (hunlink : Unlinks unlink removed query.tableList) (hn : planId ≤ n)
    {copy : SelectQuery} (hcopy : IsCopy (unlinked query unlink) copy) :
    IsPart query planId copy.statement copy.tableList.tableIds n where
  marks := by
    rw [hcopy.allMarks]
    exact hunlink.allMarks_subset
  ids := by
    rw [hcopy.tableIds]
    exact hunlink.subset
  le := hn

variable (hq : Qualified scope planId query)
  (hunlink : Unlinks unlink removed query.tableList) (hn : planId ≤ n)
  (h : preservedSide query unlink removed n = some (t, m))
include hq hunlink hn h

/-- A reference to the removed table that is missed dangles. -/
theorem replaces_of_inScope (ht : t.inScope scope) : (unlinked query unlink).Replaces removed := by
  obtain ⟨copy, r, hcopy, hr, hreplace⟩ := preservedSide_cases hunlink h
  have hpart := isPart_preserved hunlink hn hcopy
  have hremoved : removed ∉ copy.tableList.tableIds := by
    rw [hcopy.tableIds]
    exact hunlink.not_mem
  have hmarks := replaceTableReferences_marks hreplace true
  rintro k hk hrep href rfl
  have hkr : k ∈ r.allMarks := by
    refine mem_allMarks_renumber hr ?_ fun _ => hremoved
    rw [hcopy.allMarks]
    exact hk
  have hkt : k ∈ t.allMarks := by
    rw [allMarks, hmarks]
    exact mem_filter.mpr ⟨hkr, by simp [Mark.isReplaced, hrep]⟩
  have hmem := mem_occurrences_of_mem_marks hkt
  rw [href] at hmem
  rcases ht.mem hmem with hscope | hbinder
  · exact hq.not_mem_scope _ hunlink.mem hscope
  · -- the table itself would have to be left in the statement
    obtain ⟨k', hk', hkind, hid⟩ :=
      exists_mark_of_mem_occurrences hbinder true true false
    rw [hmarks] at hk'
    have hlt : k'.id < n := by
      rw [hid]
      exact (hq.mem_lt hunlink.mem).trans_le hn
    obtain ⟨hks, -⟩ := mem_allMarks_of_renumber hr
      (fun _ => hpart.id_lt hq) (mem_filter.mp hk').1 hlt
    rw [hcopy.allMarks] at hks
    have hbinds := mem_occurrences_of_mem_marks hks
    rw [hkind, hid] at hbinds
    exact hunlink.not_mem_binders hq hbinds

variable (hrenumbers : query.Renumbers) (hreplaces : (unlinked query unlink).Replaces removed)
include hrenumbers hreplaces

theorem preservedSide_rewritten : ∃ r,
    r.inScope (removed :: scope) ∧ Rewritten (nullRef removed) id r t ∧
    (false, removed) ∉ r.occurrences ∧
    ∀ {V : Type} {I : Interpretation V} [DecidableEq V] {db : Database V}
    {env : Env V}, (∀ i ∉ scope, env i = nullRow I) → queryRows I db r env =
    queryRows I db (unlinked query unlink).statement env := by
  obtain ⟨copy, r, hcopy, hr, hreplace⟩ := preservedSide_cases hunlink h
  have hpart := isPart_preserved hunlink hn hcopy
  have hlt : removed < planId := hq.mem_lt hunlink.mem
  have hold : ∀ k ∈ r.allMarks, k.id = removed →
      k ∈ (unlinked query unlink).statement.allMarks := by
    intro k hk hid
    rw [← hcopy.allMarks]
    exact (mem_allMarks_of_renumber hr (fun _ => hpart.id_lt hq) hk (hid ▸ hlt.trans_le hn)).1
  refine ⟨r, ?_, ?_, ?_, ?_⟩
  · refine hpart.inScope hq hr hrenumbers ?_ (hcopy.inScope (hunlink.inScope_unlinked hq))
    rw [hcopy.tableIds]
    intro i hi
    rcases mem_cons.mp hi with rfl | hi
    · exact ⟨hunlink.not_mem, hlt⟩
    · exact ⟨fun hmem => hq.not_mem_scope i (hunlink.subset hmem) hi, hq.scope_lt i hi⟩
  · have hfound : ∀ k ∈ r.marks true true false, k.replaced = false →
        k.isReference → k.id ≠ removed :=
      fun k hk hrep href hid => hreplaces k (hold k hk hid) hrep href hid
    exact replaceTableReferences_rewritten hreplace hfound
  · intro hmem
    obtain ⟨k, hk, hkind, hid⟩ :=
      exists_mark_of_mem_occurrences hmem true true false
    have hbinds := mem_occurrences_of_mem_marks (hold k hk hid)
    rw [hkind, hid] at hbinds
    exact hunlink.not_mem_binders hq hbinds
  · intro V I _ db env henv
    rw [hpart.rows hq hr henv hrenumbers, hcopy.queryRows_eq]

theorem preservedSide_inScope : t.inScope scope := by
  obtain ⟨r, hscope, hrw, hbinders, -⟩ :=
    preservedSide_rewritten hq hunlink hn h hrenumbers hreplaces
  refine hrw.inScope (fun o ho hkind => if_neg ?_) (fun i hi j hj => ?_) hscope
  · rintro hid
    exact hbinders (by rwa [← hkind, ← hid])
  · unfold nullRef at hj
    split_ifs at hj with hne
    cases hj
    exact (mem_cons.mp hi).resolve_left hne

/-- The preserved side denotes the rows of the SELECT without the table. -/
theorem preservedSide_rows {V : Type} {I : Interpretation V} [DecidableEq V] {db : Database V}
    {env : Env V} (henv : ∀ i ∉ scope, env i = nullRow I) : queryRows I db t env =
    queryRows I db (unlinked query unlink).statement env := by
  obtain ⟨r, -, hrw, hbinders, hrows⟩ :=
    preservedSide_rewritten hq hunlink hn h hrenumbers hreplaces
  have hsame : SameMeaning I db (nullRef removed) id r t :=
    hrw.sameMeaning_nullRef hbinders
  have hread : readEnv I (nullRef removed) env = env := by
    rw [readEnv_nullRef]
    exact Function.update_eq_self_iff.mpr (henv removed (hq.not_mem_scope removed hunlink.mem)).symm
  rw [hsame.rows, hread, hrows henv]

end PreservedSide

section ProjectedJoin

variable {scope : List ℕ} {planId n m : ℕ} {query inner : SelectQuery}
  {nulled : Option ℕ} {t : SqlStatement}

theorem projectedJoin_cases (h : projectedJoin inner nulled n = some (t, m)) :
    ∃ copy selectList, IsCopy inner copy ∧ nulledList nulled copy.selectList = some selectList ∧
    renumberTables copy.tableList.tableIds
    (copy.withList selectList).statement n = some (t, m) := by
  simp only [projectedJoin, bind_some_iff] at h
  obtain ⟨copy, hcopy, selectList, hlist, h⟩ := h
  exact ⟨copy, selectList, isCopy_of_copy hcopy, hlist, h⟩

variable {selectList : SqlStatement}

theorem nulledList_marks (hlist : nulledList nulled selectList = some list) :
    list.allMarks ⊆ selectList.allMarks ∧
      ∀ k ∈ selectList.allMarks, k.replaced = false → k ∈ list.allMarks := by
  cases nulled with
  | none =>
    cases hlist
    exact ⟨List.Subset.refl _, fun _ hk _ => hk⟩
  | some id =>
    have hmarks : list.allMarks = _ := replaceTableReferences_marks hlist true
    rw [hmarks]
    refine ⟨filter_subset_self _, fun k hk hrep => ?_⟩
    exact mem_filter.mpr ⟨hk, by simp [Mark.isReplaced, hrep]⟩

theorem nulledList_inScope (hlist : nulledList nulled selectList = some list) {scope : List ℕ}
    (hscope : selectList.inScope scope) : list.inScope scope := by
  cases nulled with
  | none =>
    cases hlist
    exact hscope
  | some id => exact replaceTableReferences_inScope hlist hscope

variable {copy : SelectQuery} {list : SqlStatement}
  (hcopy : IsCopy query inner) (hcopy' : IsCopy inner copy)
  (hlist : nulledList nulled copy.selectList = some list)
include hcopy hcopy' hlist

theorem projected_marks : (copy.withList list).statement.allMarks ⊆ query.statement.allMarks ∧
    ∀ k ∈ query.statement.allMarks, k.replaced = false →
    k ∈ (copy.withList list).statement.allMarks := by
  obtain ⟨hsubset, hkept⟩ := nulledList_marks hlist
  rw [← hcopy.allMarks, ← hcopy'.allMarks]
  constructor
  · apply cons_subset_cons
    exact append_subset_append hsubset (Subset.refl _)
  · intro k hk hrep
    rcases mem_cons.mp hk with rfl | hk
    · exact mem_cons_self
    · refine mem_cons_of_mem _ ?_
      rcases mem_append.mp hk with hk | hk
      · exact mem_append_left _ (hkept k hk hrep)
      · exact mem_append_right _ hk

theorem isPart_projected (hn : planId ≤ n) : IsPart query planId (copy.withList list).statement
    query.tableList.tableIds n :=
  ⟨(projected_marks hcopy hcopy' hlist).1, List.Subset.refl _, hn⟩

omit hcopy hcopy' hlist

variable (hq : Qualified scope planId query) (hn : planId ≤ n)
  (h : projectedJoin inner nulled n = some (t, m))
include hq hcopy hn h

/-- A reference to a table of the SELECT that is missed dangles. -/
theorem renumbers_of_projected (ht : t.inScope scope) : query.Renumbers := by
  obtain ⟨copy, list, hcopy', hlist, hr⟩ := projectedJoin_cases h
  rw [hcopy'.tableIds, hcopy.tableIds] at hr
  intro k hk hup href hi
  have hrep := replaced_of_updated (fun _ => rfl) hk hup
  have hkt : k ∈ t.allMarks := by
    refine mem_allMarks_renumber hr ((projected_marks hcopy hcopy' hlist).2 k hk hrep) ?_
    intro hup'
    exact absurd (hup.symm.trans hup') Bool.false_ne_true
  have hmem := mem_occurrences_of_mem_marks hkt
  rw [href] at hmem
  rcases ht.mem hmem with hscope | hbinder
  · exact hq.not_mem_scope k.id hi hscope
  · exact (isPart_projected hcopy hcopy' hlist hn).binder_not_mem hq hr hi hbinder

variable (hrenumbers : query.Renumbers)
include hrenumbers

theorem projectedJoin_inScope : t.inScope scope := by
  obtain ⟨copy, list, hcopy', hlist, hr⟩ := projectedJoin_cases h
  rw [hcopy'.tableIds, hcopy.tableIds] at hr
  refine (isPart_projected hcopy hcopy' hlist hn).inScope hq hr hrenumbers
    (fun i hi => ⟨fun hmem => hq.not_mem_scope i hmem hi, hq.scope_lt i hi⟩) ?_
  obtain ⟨hsl, htl, hw⟩ := hcopy'.inScope (hcopy.inScope hq.inScope)
  exact ⟨nulledList_inScope hlist hsl, htl, hw⟩

/-- The projected inner join denotes the rows of the SELECT with nulls for the
table in its select list, if the references to it are found. -/
theorem projectedJoin_rows (htable : ∀ id ∈ nulled, id ∈ query.tableList.tableIds)
    (hfound : ∀ id ∈ nulled, ∀ k ∈ query.selectList.allMarks,
    k.replaced = false → k.isReference → k.id ≠ id) {V : Type} {I : Interpretation V}
    [DecidableEq V] {db : Database V} {env : Env V} (henv : ∀ i ∉ scope, env i = nullRow I) :
    queryRows I db t env = projectedRows I db query nulled env := by
  obtain ⟨copy, list, hcopy', hlist, hr⟩ := projectedJoin_cases h
  rw [hcopy'.tableIds, hcopy.tableIds] at hr
  have hmarks : copy.selectList.allMarks = query.selectList.allMarks := by
    rw [allMarks, hcopy'.selectList.marks_of_some, hcopy.selectList.marks_of_some, allMarks]
  have hvalues : ∀ tuple, evaluateList I db list tuple =
      evaluateList I db copy.selectList (nulledEnv I nulled tuple) := by
    cases nulled with
    | none =>
      cases hlist
      exact fun _ => rfl
    | some id =>
      have hrefs : ∀ k ∈ copy.selectList.marks true true false,
          k.replaced = false → k.isReference → k.id ≠ id := by
        intro k hk
        exact hfound id rfl k (hmarks ▸ hk)
      have hbinders : (false, id) ∉ copy.selectList.occurrences := by
        intro hmem
        obtain ⟨k, hk, hkind, hid⟩ :=
          exists_mark_of_mem_occurrences hmem true true false
        change k ∈ copy.selectList.allMarks at hk
        rw [hmarks] at hk
        have hnested := mem_occurrences_of_mem_marks hk
        rw [hkind, hid] at hnested
        exact hq.nested id (htable id rfl) (mem_cons_of_mem _ (mem_append_left _ hnested))
      have hsame : SameMeaning I db (nullRef id) _ copy.selectList list :=
        (replaceTableReferences_rewritten hlist hrefs).sameMeaning_nullRef hbinders
      intro tuple
      rw [hsame.list, readEnv_nullRef]
  rw [(isPart_projected hcopy hcopy' hlist hn).rows hq hr henv hrenumbers,
    ← hcopy.projectedRows_eq, ← hcopy'.projectedRows_eq]
  simp only [SelectQuery.statement, SelectQuery.withList, queryRows, projectedRows]
  rw [funext hvalues]

end ProjectedJoin

end Octo
