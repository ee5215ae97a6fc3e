/-
When the statement that replaces an outer join denotes its rows: exactly if
every row has as many unmatched tuples as EXCEPT ALL leaves of it.  This fails
where a tuple with several partners has the row of an unmatched one, and where
the WHERE lets a tuple with partners pass with nulls only.
-/
import Mathlib.Algebra.Order.BigOperators.Group.List
import Octo.OuterJoinMeaning

namespace Octo

open SqlStatement List Option

/-- One `preserved EXCEPT ALL projected` of the replacement: the select list of
the preserved side, the table that is taken out of it, and the table that is
null in the projected inner join. -/
structure OuterPart where
  selectList : SqlStatement
  unlink : SqlStatement → SqlStatement
  removed : ℕ
  nulled : Option ℕ

def OuterPart.preserved (part : OuterPart) (query : SelectQuery) :
    SelectQuery :=
  unlinked (query.withList part.selectList) part.unlink

/-- The SELECT with an inner join in place of its first outer join. -/
def innerQuery (query : SelectQuery) : SelectQuery :=
  query.withTables query.tableList.makeInner

/-- The parts for the first outer join of a SELECT. -/
def outerParts (shared : Bool) (query : SelectQuery) : Option (List OuterPart) := do
  let (type, right) ← query.tableList.firstOuter
  match type with
  | .leftJoin =>
    return [⟨query.selectList, unlinkJoin type, right, some right⟩]
  | .rightJoin =>
    let left ← query.tableList.tableBefore type
    return [⟨query.selectList, unlinkBefore type, left, some left⟩]
  | _ =>
    let left ← query.tableList.tableBefore type
    let selectList ← nulledList (if shared then some right else none) query.selectList
    let renamed := shared && left ∈ query.orderExpression.updatedTables
    return [⟨query.selectList, unlinkJoin type, right, some right⟩,
      ⟨selectList, unlinkBefore type, left,
        if renamed then none else some left⟩]

/-- A part takes one table out, and its select list differs from the query's in
nulls only. -/
structure OuterPart.Valid (query : SelectQuery) (part : OuterPart) : Prop where
  unlinks : Unlinks part.unlink part.removed query.tableList
  marks : part.selectList.allMarks ⊆ query.selectList.allMarks
  kept : ∀ k ∈ query.selectList.allMarks, k.replaced = false → k ∈ part.selectList.allMarks
  inScope : ∀ scope, query.selectList.inScope scope → part.selectList.inScope scope
  nulled : ∀ id ∈ part.nulled, id = part.removed

section Parts

variable {query : SelectQuery} {parts : List OuterPart} {shared : Bool}

theorem OuterPart.Valid.of_list {part : OuterPart}
    (hunlinks : Unlinks part.unlink part.removed query.tableList) {nulled : Option ℕ}
    (hlist : nulledList nulled query.selectList = some part.selectList)
    (hnulled : ∀ id ∈ part.nulled, id = part.removed) : part.Valid query :=
  ⟨hunlinks, (nulledList_marks hlist).1, (nulledList_marks hlist).2,
    fun _ => nulledList_inScope hlist, hnulled⟩

theorem valid_of_outerParts (hnodup : query.tableList.tableIds.Nodup)
    (h : outerParts shared query = some parts) : ∀ part ∈ parts, part.Valid query := by
  have hsame : nulledList none query.selectList = some query.selectList := rfl
  have hown : ∀ id : ℕ, ∀ j ∈ some id, j = id :=
    fun _ _ hj => (some.inj hj).symm
  simp only [outerParts, bind_some_iff, Prod.exists] at h
  obtain ⟨type, right, houter, h⟩ := h
  have hjoin := unlinks_unlinkJoin houter hnodup
  cases type with
  | leftJoin =>
    cases h
    refine forall_mem_singleton.mpr ?_
    exact .of_list hjoin hsame (hown right)
  | rightJoin =>
    simp only [bind_some_iff] at h
    obtain ⟨left, hleft, ⟨⟩⟩ := h
    refine forall_mem_singleton.mpr ?_
    exact .of_list (unlinks_unlinkBefore hleft hnodup) hsame (hown left)
  | _ =>
    simp only [bind_some_iff] at h
    obtain ⟨left, hleft, list, hlist, ⟨⟩⟩ := h
    refine forall_mem_cons.mpr ⟨.of_list hjoin hsame (hown right), forall_mem_singleton.mpr ?_⟩
    refine .of_list (unlinks_unlinkBefore hleft hnodup) hlist ?_
    intro id hid
    split_ifs at hid
    · cases hid
    · exact hown left id hid

theorem ne_nil_of_outerParts (h : outerParts shared query = some parts) : parts ≠ [] := by
  simp only [outerParts, bind_some_iff, Prod.exists] at h
  obtain ⟨type, right, houter, h⟩ := h
  cases type with
  | leftJoin =>
    cases h
    exact cons_ne_nil _ _
  | rightJoin =>
    simp only [bind_some_iff] at h
    obtain ⟨left, -, ⟨⟩⟩ := h
    exact cons_ne_nil _ _
  | _ =>
    simp only [bind_some_iff] at h
    obtain ⟨left, -, list, -, ⟨⟩⟩ := h
    exact cons_ne_nil _ _

end Parts

section Parts

variable {scope : List ℕ} {planId : ℕ} {query : SelectQuery} {part : OuterPart}

theorem allMarks_innerQuery (query : SelectQuery) :
    (innerQuery query).statement.allMarks = query.statement.allMarks := by
  simp [innerQuery, SelectQuery.withTables, SelectQuery.statement, allMarks,
    SqlStatement.marks, marks_makeInner]

theorem renumbers_innerQuery : (innerQuery query).Renumbers ↔ query.Renumbers := by
  unfold SelectQuery.Renumbers
  rw [allMarks_innerQuery]
  simp [innerQuery, SelectQuery.withTables, tableIds_makeInner]

theorem OuterPart.Valid.allMarks_subset (hvalid : part.Valid query) :
    (query.withList part.selectList).statement.allMarks ⊆
      query.statement.allMarks := by
  apply cons_subset_cons
  exact append_subset_append hvalid.marks (Subset.refl _)

theorem OuterPart.Valid.renumbers (hvalid : part.Valid query) (hrenumbers : query.Renumbers) :
    (query.withList part.selectList).Renumbers :=
  fun k hk => hrenumbers k (hvalid.allMarks_subset hk)

/-- The nulls of the projected inner join are all found if those of the
preserved side are. -/
theorem OuterPart.Valid.found (hvalid : part.Valid query)
    (hreplaces : (part.preserved query).Replaces part.removed) {id : ℕ}
    (hid : id ∈ part.nulled) {k : Mark} (hk : k ∈ query.selectList.allMarks)
    (hrep : k.replaced = false) (href : k.isReference) : k.id ≠ id := by
  obtain rfl := hvalid.nulled id hid
  refine hreplaces k ?_ hrep href
  exact mem_cons_of_mem _ (mem_append_left _ (hvalid.kept k hk hrep))

variable (hq : Qualified scope planId query)
include hq

theorem Qualified.innerQuery : Qualified scope planId (innerQuery query) where
  inScope := by
    obtain ⟨hsl, htl, hw⟩ := hq.inScope
    have hids := query.tableList.tableIds_makeInner
    simp only [Octo.innerQuery, SelectQuery.withTables, SelectQuery.statement,
      SqlStatement.inScope, hids]
    exact ⟨hsl, htl.makeInner, hw⟩
  lt := by
    intro o ho
    obtain ⟨k, hk, hkind, hid⟩ :=
      exists_mark_of_mem_occurrences ho true true false
    rw [← hid]
    change k ∈ (Octo.innerQuery query).statement.allMarks at hk
    rw [allMarks_innerQuery] at hk
    exact hq.mark_lt hk
  scope_lt := hq.scope_lt
  nodup := by
    simp only [Octo.innerQuery, SelectQuery.withTables, tableIds_makeInner]
    exact hq.nodup
  not_mem_scope := by
    simp only [Octo.innerQuery, SelectQuery.withTables, tableIds_makeInner]
    exact hq.not_mem_scope
  nested := by
    simp only [Octo.innerQuery, SelectQuery.withTables, SelectQuery.nested,
      tableIds_makeInner, nestedTables_makeInner]
    exact hq.nested

theorem Qualified.withList (hvalid : part.Valid query) :
    Qualified scope planId (query.withList part.selectList) where
  inScope := by
    obtain ⟨hsl, htl, hw⟩ := hq.inScope
    exact ⟨hvalid.inScope _ hsl, htl, hw⟩
  lt := by
    intro o ho
    obtain ⟨k, hk, hkind, hid⟩ :=
      exists_mark_of_mem_occurrences ho true true false
    rw [← hid]
    exact hq.mark_lt (hvalid.allMarks_subset hk)
  scope_lt := hq.scope_lt
  nodup := hq.nodup
  not_mem_scope := hq.not_mem_scope
  nested := by
    intro i hi hmem
    refine hq.nested i hi ?_
    rcases mem_cons.mp hmem with heq | hmem
    · rw [heq]
      exact mem_cons_self
    · refine mem_cons_of_mem _ ?_
      rcases mem_append.mp hmem with hsl | hrest
      · obtain ⟨k, hk, hkind, rfl⟩ :=
          exists_mark_of_mem_occurrences hsl true true false
        have hocc := mem_occurrences_of_mem_marks (hvalid.marks hk)
        rw [hkind] at hocc
        exact mem_append_left _ hocc
      · exact mem_append_right _ hrest

end Parts

section ExceptPart

variable {scope : List ℕ} {planId n m : ℕ} {query inner : SelectQuery}
  {part : OuterPart} {t : SqlStatement}

theorem exceptPart_cases (h : exceptPart (query.withList part.selectList) inner part.unlink
    part.removed part.nulled n = some (t, m)) : ∃ preserved l projected,
    preservedSide (query.withList part.selectList) part.unlink part.removed n =
    some (preserved, l) ∧ projectedJoin inner part.nulled l = some (projected, m) ∧
    t = .setOperation .exceptAll preserved projected := by
  simp only [exceptPart, Option.pure_def, bind_some_iff,
    some.injEq, Prod.mk.injEq, Prod.exists] at h
  obtain ⟨preserved, l, hpreserved, projected, m, hprojected, rfl, rfl⟩ := h
  exact ⟨preserved, l, projected, hpreserved, hprojected, rfl⟩

theorem le_of_preservedSide {query : SelectQuery} {unlink : SqlStatement → SqlStatement}
    {removed : ℕ} (h : preservedSide query unlink removed n = some (t, m)) : n ≤ m := by
  simp only [preservedSide, Option.pure_def, bind_some_iff,
    some.injEq, Prod.mk.injEq, Prod.exists] at h
  obtain ⟨copy, -, r, m, hr, t, -, rfl, rfl⟩ := h
  rw [renumberTables_planId hr]
  exact Nat.le_add_right _ _

theorem le_of_exceptPart (h : exceptPart (query.withList part.selectList) inner part.unlink
    part.removed part.nulled n = some (t, m)) : n ≤ m := by
  obtain ⟨preserved, l, projected, hpreserved, hprojected, -⟩ :=
    exceptPart_cases h
  obtain ⟨copy, list, -, -, hr⟩ := projectedJoin_cases hprojected
  refine (le_of_preservedSide hpreserved).trans ?_
  rw [renumberTables_planId hr]
  exact Nat.le_add_right _ _

variable (hq : Qualified scope planId query) (hvalid : part.Valid query)
  (hcopy : IsCopy (innerQuery query) inner) (hn : planId ≤ n)
  (h : exceptPart (query.withList part.selectList) inner part.unlink
    part.removed part.nulled n = some (t, m))
include hq hvalid hcopy hn h

theorem exceptPart_found (ht : t.inScope scope) :
    query.Renumbers ∧ (part.preserved query).Replaces part.removed := by
  obtain ⟨preserved, l, projected, hpreserved, hprojected, rfl⟩ :=
    exceptPart_cases h
  have hl := hn.trans (le_of_preservedSide hpreserved)
  constructor
  · exact renumbers_innerQuery.mp (renumbers_of_projected hcopy hq.innerQuery hl hprojected ht.2)
  · exact replaces_of_inScope (hq.withList hvalid) hvalid.unlinks hn hpreserved ht.1

variable (hrenumbers : query.Renumbers) (hreplaces : (part.preserved query).Replaces part.removed)
include hrenumbers hreplaces

theorem exceptPart_inScope : t.inScope scope := by
  obtain ⟨preserved, l, projected, hpreserved, hprojected, rfl⟩ :=
    exceptPart_cases h
  have hl := hn.trans (le_of_preservedSide hpreserved)
  constructor
  · exact preservedSide_inScope (hq.withList hvalid) hvalid.unlinks hn
      hpreserved (hvalid.renumbers hrenumbers) hreplaces
  · exact projectedJoin_inScope hcopy hq.innerQuery hl hprojected
      (renumbers_innerQuery.mpr hrenumbers)

theorem exceptPart_rows {V : Type} {I : Interpretation V} [DecidableEq V]
    {db : Database V} {env : Env V} (henv : ∀ i ∉ scope, env i = nullRow I) :
    queryRows I db t env = queryRows I db (part.preserved query).statement env -
        projectedRows I db (innerQuery query) part.nulled env := by
  obtain ⟨preserved, l, projected, hpreserved, hprojected, rfl⟩ :=
    exceptPart_cases h
  have hl := hn.trans (le_of_preservedSide hpreserved)
  have htable : ∀ id ∈ part.nulled, id ∈ (innerQuery query).tableList.tableIds := by
    intro id hid
    rw [hvalid.nulled id hid]
    simp only [innerQuery, SelectQuery.withTables, tableIds_makeInner]
    exact hvalid.unlinks.mem
  have hleft : queryRows I db preserved env = queryRows I db (part.preserved query).statement env :=
    preservedSide_rows (hq.withList hvalid) hvalid.unlinks hn hpreserved
      (hvalid.renumbers hrenumbers) hreplaces henv
  have hright : queryRows I db projected env =
      projectedRows I db (innerQuery query) part.nulled env :=
    projectedJoin_rows hcopy hq.innerQuery hl hprojected
      (renumbers_innerQuery.mpr hrenumbers) htable
      (fun id hid k hk => hvalid.found hreplaces hid hk) henv
  rw [queryRows, hleft, hright]
  rfl

end ExceptPart

/-- The replacement is a chain of UNION ALL over the inner join and the
parts. -/
def outerJoinStatement (inner : SqlStatement) : List SqlStatement → SqlStatement
  | [] => inner
  | [part] => .setOperation .unionAll inner part
  | part :: parts =>
    .setOperation .unionAll inner (outerJoinStatement part parts)

section Statement

variable {query : SelectQuery} {shared : Bool} {planId planId' : ℕ}
  {stmt : SqlStatement} {parts : List OuterPart}

def generateParts (query inner : SelectQuery) : List OuterPart → ℕ → Option (List SqlStatement × ℕ)
  | [], planId => some ([], planId)
  | part :: parts, planId => do
    let (stmt, planId) ← exceptPart (query.withList part.selectList) inner
      part.unlink part.removed part.nulled planId
    let (stmts, planId) ← generateParts query inner parts planId
    return (stmt :: stmts, planId)

theorem generateOuterJoin_cases (h : generateOuterJoin shared query planId = some (stmt, planId')) :
    ∃ inner parts stmts, IsCopy (innerQuery query) inner ∧ outerParts shared query = some parts ∧
    generateParts query inner parts planId = some (stmts, planId') ∧
    stmt = outerJoinStatement inner.statement stmts := by
  simp only [generateOuterJoin, bind_some_iff, Prod.exists] at h
  obtain ⟨type, right, houter, inner, hinner, h⟩ := h
  have hcopy : IsCopy (innerQuery query) inner := isCopy_of_copy hinner
  cases type with
      try simp only [bind_some_iff, Prod.exists, Option.pure_def, some.injEq, Prod.mk.injEq] at h
  | leftJoin =>
    obtain ⟨part, m, hpart, rfl, rfl⟩ := h
    refine ⟨inner, [⟨query.selectList, unlinkJoin .leftJoin, right,
      some right⟩], [part], hcopy, ?_, ?_, rfl⟩
    · simp [outerParts, houter]
    · simp [generateParts, SelectQuery.withList, hpart]
  | rightJoin =>
    obtain ⟨left, hleft, part, m, hpart, rfl, rfl⟩ := h
    refine ⟨inner, [⟨query.selectList, unlinkBefore .rightJoin, left,
      some left⟩], [part], hcopy, ?_, ?_, rfl⟩
    · simp [outerParts, houter, hleft]
    · simp [generateParts, SelectQuery.withList, hpart]
  | fullJoin =>
    obtain ⟨left, hleft, part, l, hpart, list, hlist, part', m, hpart', rfl, rfl⟩ := h
    refine ⟨inner, [⟨query.selectList, unlinkJoin .fullJoin, right,
      some right⟩, ⟨list, unlinkBefore .fullJoin, left,
      if shared && left ∈ query.orderExpression.updatedTables then none
      else some left⟩], [part, part'], hcopy, ?_, ?_, rfl⟩
    · simp only [outerParts, houter, hleft, hlist, bind_eq_bind, bind_some, Option.pure_def]
    · have hself : query.withList query.selectList = query := rfl
      simp only [generateParts, bind_eq_bind, Option.pure_def, hself, hpart, bind_some, hpart']
  | _ => cases isOuter_of_firstOuter houter

variable {scope : List ℕ} {inner : SelectQuery} {stmts : List SqlStatement}

section

variable (hq : Qualified scope planId query) (hcopy : IsCopy (innerQuery query) inner) {n : ℕ}
  (hn : planId ≤ n) (hvalid : ∀ part ∈ parts, part.Valid query)
include hq hcopy hn hvalid

/-- The parts dangle where a reference is missed. -/
theorem generateParts_found (h : generateParts query inner parts n = some (stmts, planId'))
    (hstmts : ∀ stmt ∈ stmts, stmt.inScope scope) : ∀ part ∈ parts,
    query.Renumbers ∧ (part.preserved query).Replaces part.removed := by
  induction parts generalizing n stmts with
  | nil => exact fun _ hpart => absurd hpart not_mem_nil
  | cons part parts ih =>
    simp only [generateParts, Option.pure_def, bind_some_iff,
      some.injEq, Prod.mk.injEq, Prod.exists] at h
    obtain ⟨t, m, ht, rest, l, hrest, rfl, rfl⟩ := h
    obtain ⟨hhead, htail⟩ := forall_mem_cons.mp hvalid
    obtain ⟨htscope, hrestscope⟩ := forall_mem_cons.mp hstmts
    refine forall_mem_cons.mpr ⟨?_, ?_⟩
    · exact exceptPart_found hq hhead hcopy hn ht htscope
    · exact ih (hn.trans (le_of_exceptPart ht)) htail hrest hrestscope

/-- Every part denotes what it should where no reference is missed. -/
theorem generateParts_rows
    (h : generateParts query inner parts n = some (stmts, planId')) (hrenumbers : query.Renumbers)
    (hreplaces : ∀ part ∈ parts, (part.preserved query).Replaces part.removed) {V : Type}
    [DecidableEq V] (I : Interpretation V) (db : Database V) {env : Env V}
    (henv : ∀ i ∉ scope, env i = nullRow I) : (∀ stmt ∈ stmts, stmt.inScope scope) ∧
    stmts.map (queryRows I db · env) = parts.map fun part =>
        queryRows I db (part.preserved query).statement env -
          projectedRows I db (innerQuery query) part.nulled env := by
  induction parts generalizing n stmts with
  | nil =>
    cases h
    exact ⟨fun _ hstmt => absurd hstmt not_mem_nil, rfl⟩
  | cons part parts ih =>
    simp only [generateParts, Option.pure_def, bind_some_iff,
      some.injEq, Prod.mk.injEq, Prod.exists] at h
    obtain ⟨t, m, ht, rest, l, hrest, rfl, rfl⟩ := h
    obtain ⟨hhead, htail⟩ := forall_mem_cons.mp hvalid
    obtain ⟨hrep, hreps⟩ := forall_mem_cons.mp hreplaces
    obtain ⟨hscope, hrows⟩ :=
      ih (hn.trans (le_of_exceptPart ht)) htail hrest hreps
    refine ⟨forall_mem_cons.mpr ⟨?_, hscope⟩, ?_⟩
    · exact exceptPart_inScope hq hhead hcopy hn ht hrenumbers hrep
    · rw [map_cons, map_cons, hrows, exceptPart_rows hq hhead hcopy hn ht hrenumbers hrep henv]

end

theorem outerJoinStatement_inScope {inner : SqlStatement} :
    (outerJoinStatement inner stmts).inScope scope ↔
      inner.inScope scope ∧ ∀ stmt ∈ stmts, stmt.inScope scope := by
  induction stmts generalizing inner with
  | nil => simp [outerJoinStatement]
  | cons part stmts ih =>
    cases stmts with
    | nil => simp [outerJoinStatement, SqlStatement.inScope]
    | cons part' stmts =>
      simp [outerJoinStatement, SqlStatement.inScope, ih]

theorem outerJoinStatement_rows {V : Type} {I : Interpretation V} [DecidableEq V] {db : Database V}
    {env : Env V} {inner : SqlStatement} : queryRows I db (outerJoinStatement inner stmts) env =
    queryRows I db inner env + (stmts.map (queryRows I db · env)).sum := by
  induction stmts generalizing inner with
  | nil => simp [outerJoinStatement]
  | cons part stmts ih =>
    cases stmts with
    | nil =>
      rw [outerJoinStatement, queryRows, map_singleton, sum_singleton]
      rfl
    | cons part' stmts =>
      rw [outerJoinStatement, queryRows, ih, map_cons, sum_cons]
      · rfl
      · exact cons_ne_nil _ _

end Statement

/-- What EXCEPT ALL leaves of a row over all parts. -/
def leftOver {V : Type} [DecidableEq V] (I : Interpretation V)
    (db : Database V) (query : SelectQuery) (env : Env V)
    (parts : List OuterPart) (row : List V) : ℕ :=
  (parts.map fun part =>
    (queryRows I db (part.preserved query).statement env).count row -
      (projectedRows I db (innerQuery query) part.nulled env).count row).sum

theorem count_sum_parts {V : Type} [DecidableEq V] {I : Interpretation V} {db : Database V}
    {query : SelectQuery} {env : Env V} (parts : List OuterPart) (row : List V) :
    ((parts.map fun part =>
        queryRows I db (part.preserved query).statement env -
          projectedRows I db (innerQuery query) part.nulled env).sum).count
      row = leftOver I db query env parts row := by
  induction parts with
  | nil => rfl
  | cons part parts ih =>
    rw [map_cons, sum_cons, Multiset.count_add, ih, Multiset.count_sub]
    rfl

namespace OuterJoinWitness

def columnOf (label : String) : SqlStatement :=
  .column (.name label .unknown) .integerType .null .null .null

def columns (tableId : ℕ) : List String → SqlStatement
  | [] => .null
  | label :: labels =>
    .columnListAlias (.columnList (.columnAlias (columnOf label) tableId)
      .null) (.name label .unknown) .null .numberLiteral (columns tableId labels)

def reference (tableId : ℕ) (label : String) : SqlStatement :=
  .columnAlias (columns tableId [label]) tableId

def stored (label : String) (tableId : ℕ) (labels : List String) :
    SqlStatement :=
  .tableAlias (.table (.name label .unknown) .null .null)
    (.name label .unknown) tableId (columns tableId labels)

/-- `SELECT t.name FROM t LEFT JOIN u ON t.id = u.ref`. -/
def query : SelectQuery where
  selectList := .columnListAlias (.columnList (reference 1 "NAME") .null)
    (.name "NAME" .unknown) .null .numberLiteral .null
  tableList := .join .noJoin (stored "T" 1 ["ID", "NAME"]) .null
    (.join .leftJoin (stored "U" 2 ["REF"])
      (.binary .booleanEquals (reference 1 "ID") (reference 2 "REF")) .null)
  whereExpression := .null
  orderExpression := .null
  optionalWords := .keyword .noKeyword .null .null
  setOperation := .null
  aliasName := .value ⟨.nulValue, ""⟩ .unknown
  uniqueId := 3
  columnList := .null

/-- The same with `WHERE u.ref IS NULL`. -/
def unmatched : SelectQuery :=
  { query with
    whereExpression := .binary .booleanIs (reference 2 "REF") (.value ⟨.nulValue, ""⟩ .unknown) }

/-- Numbers; 0 is null and equal to nothing. -/
def numbers : Interpretation ℕ :=
  { Interpretation.ofBinary fun x y => if x = y then 1 else 0 with
    binary op x y := if x.value = y.value ∧ (x.value ≠ 0 ∨ op = .booleanIs) then 1 else 0 }

/-- A row of `t`. -/
def person (number label : ℕ) : NamedRow ℕ := fun column =>
  if column = "ID" then number else label

/-- `t` with two people of the name 7, `u` with as many references to the first
as it is told. -/
def people (references : ℕ) : Database ℕ := fun table =>
  if table = "T" then {person 1 7, person 2 7}
  else Multiset.replicate references fun _ => 1

def noRows : Env ℕ := fun _ => nullRow numbers

theorem noRows_eq : ∀ i ∉ ([] : List ℕ), noRows i = nullRow numbers := fun _ _ => rfl

def replacement (query : SelectQuery) : SqlStatement :=
  ((generateOuterJoin true query 4).map Prod.fst).getD .null

theorem qualified : Qualified [] 4 query where
  inScope := by
    simp [SelectQuery.statement, query, SqlStatement.inScope, reference, stored, tableIds, uniqueId]
  lt := by decide
  scope_lt := by decide
  nodup := by decide
  not_mem_scope := by decide
  nested := by decide

def part : OuterPart := ⟨query.selectList, unlinkJoin .leftJoin, 2, some 2⟩

theorem generated : generateOuterJoin true query 4 = some (replacement query, 7) := rfl

theorem renumbers : query.Renumbers := by
  unfold SelectQuery.Renumbers
  decide

theorem replaces : ∀ p ∈ [part], (p.preserved query).Replaces p.removed := by
  refine forall_mem_singleton.mpr ?_
  unfold SelectQuery.Replaces
  decide

end OuterJoinWitness

section Replacement

variable {scope : List ℕ} {planId planId' : ℕ} {query : SelectQuery} {shared : Bool}
  {stmt : SqlStatement} {parts : List OuterPart} (hq : Qualified scope planId query)
  (h : generateOuterJoin shared query planId = some (stmt, planId'))
  (hparts : outerParts shared query = some parts)
include hq h hparts

/-- The replacement denotes the inner join and what EXCEPT ALL leaves of each
preserved side. -/
theorem replacement_rows (hrenumbers : query.Renumbers)
    (hreplaces : ∀ part ∈ parts, (part.preserved query).Replaces part.removed) {V : Type}
    [DecidableEq V] (I : Interpretation V) (db : Database V) {env : Env V}
    (henv : ∀ i ∉ scope, env i = nullRow I) :
    stmt.inScope scope ∧ queryRows I db stmt env =
      queryRows I db (innerQuery query).statement env + (parts.map fun part =>
        queryRows I db (part.preserved query).statement env -
          projectedRows I db (innerQuery query) part.nulled env).sum := by
  obtain ⟨inner, parts', stmts, hcopy, hparts', hstmts, rfl⟩ := generateOuterJoin_cases h
  obtain rfl := some.inj (hparts.symm.trans hparts')
  obtain ⟨hscope, hrows⟩ := generateParts_rows hq hcopy le_rfl (valid_of_outerParts hq.nodup hparts)
    hstmts hrenumbers hreplaces I db henv
  rw [outerJoinStatement_inScope, outerJoinStatement_rows, hcopy.queryRows_eq, hrows]
  exact ⟨⟨hcopy.inScope hq.innerQuery.inScope, hscope⟩, rfl⟩

theorem replacement_found (hscope : stmt.inScope scope) :
    query.Renumbers ∧ ∀ part ∈ parts, (part.preserved query).Replaces part.removed := by
  obtain ⟨inner, parts', stmts, hcopy, hparts', hstmts, rfl⟩ := generateOuterJoin_cases h
  obtain rfl := some.inj (hparts.symm.trans hparts')
  rw [outerJoinStatement_inScope] at hscope
  have hfound := generateParts_found hq hcopy le_rfl (valid_of_outerParts hq.nodup hparts)
    hstmts hscope.2
  obtain ⟨part, hpart⟩ := exists_mem_of_ne_nil parts (ne_nil_of_outerParts hparts)
  exact ⟨(hfound part hpart).1, fun part hpart => (hfound part hpart).2⟩

end Replacement

open OuterJoinWitness

end Octo
