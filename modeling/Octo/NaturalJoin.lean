/-
The condition of a natural join.  The loop over the columns moves one cursor
and reads the name at another, so it takes the first column of a table as often
as the table has columns; and the space for a name of the right table is
measured by the left table.
-/
import Mathlib.Data.List.Nodup
import Octo.SqlStatement

namespace Octo

open List

/-- What `UNPACK_SQL_STATEMENT` and `string_literal` give for a name. -/
def SqlStatement.nameText : SqlStatement → Option String
  | .value literal _ => some literal.stringLiteral
  | .name text _ => some text
  | _ => none

/-- `match_column_in_table`, on the columns of the table: the list from the
first column with this name on, or `null`. -/
def matchColumnInTable (columnName : String) : SqlStatement → Option SqlStatement
  | .null => some .null
  | .columnListAlias _ .null _ _ next => matchColumnInTable columnName next
  | .columnListAlias columns aliasName keywords type next => do
    if (← aliasName.nameText) = columnName then
      some (.columnListAlias columns aliasName keywords type next)
    else matchColumnInTable columnName next
  | _ => none

/-- `"%s.%s"` printed to a string of `size` bytes.  There is nothing between
two allocations of `octo_cmalloc`, so what does not fit is overwritten by the
next one. -/
def printQualified (size : ℕ) (tableName columnName : String) : Option SqlStatement :=
  if tableName.utf8ByteSize + columnName.utf8ByteSize + 2 ≤ size then
    some (.name (tableName ++ "." ++ columnName) .unknown)
  else none

/-- One equality, put behind the conditions there are. -/
def addEquality (tableName rTableName columnName : String)
    (ret : SqlStatement) : Option SqlStatement := do
  let tableNameLen := tableName.utf8ByteSize
  let rTableNameLen := tableName.utf8ByteSize
  let columnNameLen := columnName.utf8ByteSize
  let left ← printQualified (tableNameLen + columnNameLen + 2) tableName columnName
  let right ← printQualified (rTableNameLen + columnNameLen + 2) rTableName columnName
  let condition := .binary .booleanEquals left right
  some (if ret = .null then condition else .binary .booleanAnd ret condition)

def matchRightTables (tableName columnName : String) :
    SqlStatement → SqlStatement → Option SqlStatement
  | .null, ret => some ret
  | .join _ (.tableAlias _ aliasName _ columnList) _ next, ret => do
    let matched ← matchColumnInTable columnName columnList
    if matched = .null then matchRightTables tableName columnName next ret
    else
      let rTableName ← aliasName.nameText
      let ret ← addEquality tableName rTableName columnName ret
      matchRightTables tableName columnName next ret
  | _, _ => none

def firstColumnName : SqlStatement → Option String
  | .columnListAlias _ aliasName _ _ _ => aliasName.nameText
  | _ => none

/-- The loop over the columns of a table on the left.  The cursor is `clCur`,
but the name is read at `clStart`. -/
def matchColumns (right : SqlStatement) (tableName : String) (clStart : SqlStatement) :
    SqlStatement → SqlStatement → Option SqlStatement
  | .null, ret => some ret
  | .columnListAlias _ _ _ _ clCur, ret => do
    let columnName ← firstColumnName clStart
    let matched ← matchColumnInTable columnName clStart
    if matched = .null then none
    else
      let ret ← matchRightTables tableName columnName right ret
      matchColumns right tableName clStart clCur ret
  | _, _ => none

def matchLeftTables (right : SqlStatement) : SqlStatement → SqlStatement → Option SqlStatement
  | .null, ret => some ret
  | .join _ (.tableAlias _ aliasName _ columnList) _ next, ret => do
    let tableName ← aliasName.nameText
    if columnList = .null then none
    else
      let ret ← matchColumns right tableName columnList columnList ret
      matchLeftTables right next ret
  | _, _ => none

/-- `natural_join_condition`; the result `null` is the condition NULL. -/
def naturalJoinCondition (left right : SqlStatement) : Option SqlStatement :=
  if left = .null ∨ right = .null then none
  else matchLeftTables right left .null

structure NamedTable where
  tableName : String
  firstColumn : String
  otherColumns : List String
deriving DecidableEq, Repr

def NamedTable.columns (table : NamedTable) : List String :=
  table.firstColumn :: table.otherColumns

/-- The names of a list of columns, if all have one. -/
def columnNames : SqlStatement → Option (List String)
  | .null => some []
  | .columnListAlias _ aliasName _ _ next => do
    return (← aliasName.nameText) :: (← columnNames next)
  | _ => none

def namedTable : SqlStatement → Option NamedTable
  | .tableAlias _ aliasName _ (.columnListAlias _ columnName _ _ next) => do
    return ⟨← aliasName.nameText, ← columnName.nameText, ← columnNames next⟩
  | _ => none

def namedTables : SqlStatement → Option (List NamedTable)
  | .null => some []
  | .join _ value _ next => do
    return (← namedTable value) :: (← namedTables next)
  | _ => none

structure JoinList where
  statement : SqlStatement
  tables : List NamedTable
  reads : namedTables statement = some tables
  tables_ne_nil : tables ≠ []

def conjuncts : SqlStatement → List SqlStatement
  | .null => []
  | .binary .booleanAnd operand0 operand1 =>
    conjuncts operand0 ++ conjuncts operand1
  | condition => [condition]

def columnEquality (tableName rTableName columnName : String) : SqlStatement :=
  .binary .booleanEquals (.name (tableName ++ "." ++ columnName) .unknown)
    (.name (rTableName ++ "." ++ columnName) .unknown)

/-- The equalities of a column with the tables on the right that have its
name. -/
def equalitiesOf (rights : List NamedTable) (table : NamedTable)
    (columnName : String) : List SqlStatement :=
  (rights.filter (columnName ∈ ·.columns)).map fun right =>
    columnEquality table.tableName right.tableName columnName

/-- One equality for each column on the left and each table on the right with
a column of this name. -/
def sharedEqualities (lefts rights : List NamedTable) : List SqlStatement :=
  lefts.flatMap fun table => table.columns.flatMap (equalitiesOf rights table)

/-- The condition is the conjunction of these equalities, in any order, or
NULL if there are none. -/
structure JoinsNaturally (left right : JoinList) (condition : SqlStatement) : Prop where
  returned : naturalJoinCondition left.statement right.statement = some condition
  equalities : (conjuncts condition).Perm (sharedEqualities left.tables right.tables)
  nul : sharedEqualities left.tables right.tables = [] → condition = .null

section Loops

/-- The conditions of a list, put together from left to right. -/
def conjunction (ret : SqlStatement) (equalities : List SqlStatement) :
    SqlStatement :=
  equalities.foldl (fun ret equality =>
      if ret = .null then equality else .binary .booleanAnd ret equality) ret

theorem conjunction_append (ret : SqlStatement) (first second : List SqlStatement) :
    conjunction ret (first ++ second) = conjunction (conjunction ret first) second :=
  foldl_append

theorem conjuncts_conjunction {equalities : List SqlStatement}
    (hequalities : ∀ equality ∈ equalities, conjuncts equality = [equality]) (ret : SqlStatement) :
    conjuncts (conjunction ret equalities) = conjuncts ret ++ equalities := by
  induction equalities generalizing ret with
  | nil => simp [conjunction]
  | cons equality rest ih =>
    rw [forall_mem_cons] at hequalities
    rw [conjunction, foldl_cons, ← conjunction, ih hequalities.2, append_cons]
    congr 1
    by_cases hret : ret = .null
    · simp [hret, hequalities.1, conjuncts]
    · simp [hret, hequalities.1, conjuncts]

/-- A table with a longer name does not fit. -/
theorem addEquality_eq (tableName rTableName columnName : String) (ret : SqlStatement) :
    addEquality tableName rTableName columnName ret =
      if rTableName.utf8ByteSize ≤ tableName.utf8ByteSize then
        some (conjunction ret [columnEquality tableName rTableName columnName])
      else none := by
  by_cases hfits : rTableName.utf8ByteSize ≤ tableName.utf8ByteSize
  · simp [addEquality, printQualified, conjunction, columnEquality, hfits]
  · simp [addEquality, printQualified, hfits]

variable {names : List String} {clStart value : SqlStatement} {table : NamedTable}

theorem matchColumnInTable_eq (columnName : String) {columns : SqlStatement}
    (hcolumns : columnNames columns = some names) :
    ∃ matched, matchColumnInTable columnName columns = some matched ∧
      (matched = .null ↔ columnName ∉ names) := by
  induction columns generalizing names with
  | null =>
    cases hcolumns
    exact ⟨.null, rfl, by simp⟩
  | columnListAlias list aliasName keywords type next _ _ _ ih =>
    simp only [columnNames, bind_some_iff, Option.pure_def, Option.some.injEq] at hcolumns
    obtain ⟨text, htext, rest, hrest, rfl⟩ := hcolumns
    obtain ⟨matched, hmatched, hnull⟩ := ih hrest
    have hnamed : aliasName ≠ .null := by
      rintro rfl
      cases htext
    rw [matchColumnInTable]
    · by_cases hname : text = columnName
      · exact ⟨_, by simp [htext, hname]; rfl, by simp [hname]⟩
      · exact ⟨matched, by simpa [htext, hname] using hmatched,
          by simpa [Ne.symm hname] using hnull⟩
    · exact hnamed
  | _ => cases hcolumns

theorem namedTable_eq_some (hvalue : namedTable value = some table) :
    ∃ query aliasName uniqueId columns, value = .tableAlias query aliasName uniqueId columns ∧
    aliasName.nameText = some table.tableName ∧ firstColumnName columns = some table.firstColumn ∧
    columnNames columns = some table.columns := by
  unfold namedTable at hvalue
  split at hvalue
  · rename_i query aliasName uniqueId list columnName keywords type next
    simp only [bind_some_iff, Option.pure_def, Option.some.injEq] at hvalue
    obtain ⟨tableName, htable, first, hfirst, others, hothers, rfl⟩ := hvalue
    exact ⟨query, aliasName, uniqueId, _, rfl, htable, hfirst,
      by simp [columnNames, hfirst, hothers, NamedTable.columns]⟩
  · cases hvalue

theorem namedTables_join {type : JoinType} {condition next : SqlStatement}
    {tables : List NamedTable}
    (htables : namedTables (.join type value condition next) = some tables) :
    ∃ table rest, namedTable value = some table ∧
      namedTables next = some rest ∧ tables = table :: rest := by
  simp only [namedTables, bind_some_iff, Option.pure_def, Option.some.injEq] at htables
  obtain ⟨table, htable, rest, hrest, rfl⟩ := htables
  exact ⟨table, rest, htable, hrest, rfl⟩

/-- No name of a table on the right that has the column is longer. -/
def NamesFit (rights : List NamedTable) (tableName columnName : String) :
    Prop :=
  ∀ right ∈ rights, columnName ∈ right.columns →
    right.tableName.utf8ByteSize ≤ tableName.utf8ByteSize

instance (rights : List NamedTable) (tableName columnName : String) :
    Decidable (NamesFit rights tableName columnName) :=
  inferInstanceAs (Decidable (∀ right ∈ rights, columnName ∈ right.columns →
    right.tableName.utf8ByteSize ≤ tableName.utf8ByteSize))

theorem namesFit_cons (other : NamedTable) (rest : List NamedTable)
    (tableName columnName : String) : NamesFit (other :: rest) tableName columnName ↔
    (columnName ∈ other.columns → other.tableName.utf8ByteSize ≤ tableName.utf8ByteSize) ∧
    NamesFit rest tableName columnName :=
  forall_mem_cons

theorem equalitiesOf_cons (other : NamedTable) (rest : List NamedTable) (table : NamedTable)
    (columnName : String) : equalitiesOf (other :: rest) table columnName =
    (if columnName ∈ other.columns then
        [columnEquality table.tableName other.tableName columnName] else []) ++
        equalitiesOf rest table columnName := by
  by_cases hshared : columnName ∈ other.columns <;> simp [equalitiesOf, hshared]

theorem matchRightTables_eq {right : SqlStatement} {rights : List NamedTable}
    (hright : namedTables right = some rights) (table : NamedTable) (columnName : String)
    (ret : SqlStatement) : matchRightTables table.tableName columnName right ret =
      if NamesFit rights table.tableName columnName then
        some (conjunction ret (equalitiesOf rights table columnName))
      else none := by
  induction right generalizing rights ret with
  | null =>
    cases hright
    simp [matchRightTables, NamesFit, equalitiesOf, conjunction]
  | join type value condition next _ _ ih =>
    obtain ⟨other, rest, hother, hrest, rfl⟩ := namedTables_join hright
    obtain ⟨query, aliasName, uniqueId, columns, rfl, halias, -, hcolumns⟩ :=
      namedTable_eq_some hother
    obtain ⟨matched, hmatched, hnull⟩ :=
      matchColumnInTable_eq columnName hcolumns
    simp only [namesFit_cons, equalitiesOf_cons, conjunction_append]
    by_cases hshared : columnName ∈ other.columns
    · have hfound : matched ≠ .null := fun h => hnull.mp h hshared
      by_cases hfits : other.tableName.utf8ByteSize ≤ table.tableName.utf8ByteSize
      · simp [matchRightTables, hmatched, hfound, halias, addEquality_eq, hfits, ih hrest, hshared]
      · simp [matchRightTables, hmatched, hfound, halias, addEquality_eq, hfits, hshared]
    · have hfound : matched = .null := hnull.mpr hshared
      simp [matchRightTables, hmatched, hfound, ih hrest, hshared, conjunction]
  | _ => cases hright

variable {right : SqlStatement} {rights : List NamedTable}

section

variable (hright : namedTables right = some rights)
  (hfirst : firstColumnName clStart = some table.firstColumn)
  (hstart : columnNames clStart = some table.columns)
include hright hfirst hstart

/-- The first column is taken once for each column. -/
theorem matchColumns_eq (hfits : NamesFit rights table.tableName table.firstColumn)
    {clCur : SqlStatement} (hcur : columnNames clCur = some names) (ret : SqlStatement) :
    matchColumns right table.tableName clStart clCur ret =
    some (conjunction ret (names.flatMap fun _ =>
        equalitiesOf rights table table.firstColumn)) := by
  obtain ⟨matched, hmatched, hnull⟩ :=
    matchColumnInTable_eq table.firstColumn hstart
  have hfound : matched ≠ .null := fun h =>
    hnull.mp h mem_cons_self
  induction clCur generalizing names ret with
  | null =>
    cases hcur
    rfl
  | columnListAlias list aliasName keywords type next _ _ _ ih =>
    simp only [columnNames, bind_some_iff, Option.pure_def, Option.some.injEq] at hcur
    obtain ⟨text, -, rest, hrest, rfl⟩ := hcur
    simp [matchColumns, hfirst, hmatched, hfound, matchRightTables_eq hright,
      hfits, ih hrest, conjunction_append]
  | _ => cases hcur

theorem matchColumns_eq_none (hfits : ¬ NamesFit rights table.tableName table.firstColumn)
    (ret : SqlStatement) : matchColumns right table.tableName clStart clStart ret = none := by
  obtain ⟨matched, hmatched, -⟩ :=
    matchColumnInTable_eq table.firstColumn hstart
  cases clStart with
  | columnListAlias list aliasName keywords type next =>
    simp [matchColumns, hfirst, hmatched, matchRightTables_eq hright, hfits]
  | _ => cases hfirst

end

/-- The first column of each table, once for each of its columns. -/
def firstEqualities (lefts rights : List NamedTable) : List SqlStatement :=
  lefts.flatMap fun table => table.columns.flatMap fun _ =>
    equalitiesOf rights table table.firstColumn

theorem matchLeftTables_eq (hright : namedTables right = some rights) {left : SqlStatement}
    {lefts : List NamedTable} (hleft : namedTables left = some lefts) (ret : SqlStatement) :
    matchLeftTables right left ret =
      if ∀ table ∈ lefts, NamesFit rights table.tableName table.firstColumn then
        some (conjunction ret (firstEqualities lefts rights))
      else none := by
  induction left generalizing lefts ret with
  | null =>
    cases hleft
    simp [matchLeftTables, firstEqualities, conjunction]
  | join type value condition next _ _ ih =>
    obtain ⟨table, rest, htable, hrest, rfl⟩ := namedTables_join hleft
    obtain ⟨query, aliasName, uniqueId, columns, rfl, halias, hfirst,
      hcolumns⟩ := namedTable_eq_some htable
    have hlist : columns ≠ .null := by
      rintro rfl
      cases hfirst
    by_cases hfits : NamesFit rights table.tableName table.firstColumn
    · simp [matchLeftTables, halias, hlist, matchColumns_eq hright hfirst hcolumns hfits hcolumns,
        hfits, ih hrest, firstEqualities, conjunction_append]
    · simp [matchLeftTables, halias, hlist,
        matchColumns_eq_none hright hfirst hcolumns hfits, hfits]
  | _ => cases hleft

theorem naturalJoinCondition_eq (left right : JoinList) :
    naturalJoinCondition left.statement right.statement =
      if ∀ table ∈ left.tables, NamesFit right.tables table.tableName table.firstColumn then
        some (conjunction .null (firstEqualities left.tables right.tables))
      else none := by
  have hne : ∀ list : JoinList, list.statement ≠ .null := by
    intro list hnull
    have hreads := list.reads
    rw [hnull, namedTables, Option.some.injEq] at hreads
    exact list.tables_ne_nil hreads.symm
  rw [naturalJoinCondition, if_neg (by simp [hne]), matchLeftTables_eq right.reads left.reads]

end Loops

variable {lefts rights : List NamedTable} {table : NamedTable}
  {columnName : String} {equality : SqlStatement}

theorem conjuncts_of_mem_equalitiesOf
    (hequality : equality ∈ equalitiesOf rights table columnName) :
    conjuncts equality = [equality] := by
  obtain ⟨right, -, rfl⟩ := mem_map.mp hequality
  rfl

theorem conjuncts_firstEqualities (lefts rights : List NamedTable) :
    conjuncts (conjunction .null (firstEqualities lefts rights)) =
      firstEqualities lefts rights := by
  rw [conjuncts_conjunction]
  · rfl
  · intro equality hequality
    simp only [firstEqualities, mem_flatMap] at hequality
    obtain ⟨table, -, columnName, -, hequality⟩ := hequality
    exact conjuncts_of_mem_equalitiesOf hequality

/-- All columns of the table have the name of the first one, or no table on the
right has a column of this table. -/
def FirstColumnOnly (rights : List NamedTable) (table : NamedTable) : Prop :=
  (∀ columnName ∈ table.columns, columnName = table.firstColumn) ∨
    ∀ columnName ∈ table.columns, ∀ right ∈ rights, columnName ∉ right.columns

instance (rights : List NamedTable) (table : NamedTable) :
    Decidable (FirstColumnOnly rights table) :=
  inferInstanceAs (Decidable (_ ∨ _))

/-- A qualified name stands for one column name of one table of the join. -/
structure Unambiguous (tables : List NamedTable) : Prop where
  nodup : (tables.map NamedTable.tableName).Nodup
  qualified : ∀ first ∈ tables, ∀ second ∈ tables,
    ∀ column ∈ first.columns, ∀ other ∈ second.columns,
      first.tableName ++ "." ++ column = second.tableName ++ "." ++ other →
        first.tableName = second.tableName ∧ column = other

section Tables

variable {rights : List NamedTable} {table : NamedTable}

variable {columnName : String}

theorem equalitiesOf_eq_nil_iff : equalitiesOf rights table columnName = [] ↔
      ∀ right ∈ rights, columnName ∉ right.columns := by
  simp [equalitiesOf, filter_eq_nil_iff]

/-- The two lists of a table. -/
theorem flatMap_first_eq (honly : FirstColumnOnly rights table) : (table.columns.flatMap fun _ =>
        equalitiesOf rights table table.firstColumn) =
      table.columns.flatMap (equalitiesOf rights table) := by
  apply flatMap_congr
  intro columnName hcolumn
  rcases honly with hsame | hnone
  · rw [hsame columnName hcolumn]
  · rw [equalitiesOf_eq_nil_iff.mpr (hnone _ hcolumn),
      equalitiesOf_eq_nil_iff.mpr (hnone _ mem_cons_self)]

theorem length_flatMap_eq {β : Type*} {f : String → List β} {first : String}
    {names : List String} (hothers : ∀ text ∈ names, text ≠ first → f text = []) :
    (names.flatMap f).length = names.count first * (f first).length := by
  induction names with
  | nil => simp
  | cons text rest ih =>
    rw [forall_mem_cons] at hothers
    rw [flatMap_cons, length_append, ih hothers.2]
    by_cases htext : text = first
    · subst htext
      rw [count_cons_self]
      ring
    · simp [hothers.1 htext, htext]

/-- One equality too many for each column with another name. -/
theorem firstColumnOnly_of_perm (hqualified : ∀ column ∈ table.columns, ∀ other ∈ table.columns,
    table.tableName ++ "." ++ column = table.tableName ++ "." ++ other → column = other)
    (hperm : (table.columns.flatMap fun _ =>
        equalitiesOf rights table table.firstColumn).Perm
      (table.columns.flatMap (equalitiesOf rights table))) :
    FirstColumnOnly rights table := by
  have hshared : ∀ column ∈ table.columns, ∀ right ∈ rights,
      column ∈ right.columns → column = table.firstColumn := by
    intro column hcolumn right hright hmem
    have hequality := hperm.mem_iff.mpr (mem_flatMap.mpr ⟨column, hcolumn,
      mem_map.mpr ⟨right, mem_filter.mpr ⟨hright, by simpa using hmem⟩, rfl⟩⟩)
    obtain ⟨-, -, hequality⟩ := mem_flatMap.mp hequality
    obtain ⟨other, -, heq⟩ := mem_map.mp hequality
    have htext : table.tableName ++ "." ++ table.firstColumn =
        table.tableName ++ "." ++ column := by
      simp only [columnEquality, SqlStatement.binary.injEq, SqlStatement.name.injEq] at heq
      exact heq.2.1.1
    exact (hqualified _ mem_cons_self _ hcolumn htext).symm
  by_cases hfirst : equalitiesOf rights table table.firstColumn = []
  · right
    intro column hcolumn right hright hmem
    have heq := hshared column hcolumn right hright hmem
    rw [heq] at hmem
    exact equalitiesOf_eq_nil_iff.mp hfirst right hright hmem
  · left
    have hothers : ∀ column ∈ table.columns, column ≠ table.firstColumn →
        equalitiesOf rights table column = [] := by
      intro column hcolumn hne
      apply equalitiesOf_eq_nil_iff.mpr
      intro right hright hmem
      exact hne (hshared column hcolumn right hright hmem)
    have hlength := hperm.length_eq
    rw [length_flatMap_eq hothers, length_flatMap, map_const', sum_replicate_nat] at hlength
    have hcount := Nat.eq_of_mul_eq_mul_right (length_pos_iff.mpr hfirst) hlength
    intro column hcolumn
    exact (count_eq_length.mp hcount.symm column hcolumn).symm

end Tables

/-- Lists that are put together from parts are permutations of each other only
if their parts are, where a test tells a part from the others. -/
theorem perm_of_perm_flatMap {ι β : Type*} {f g : ι → List β} {l : List ι} {x : ι} (hx : x ∈ l)
    (hnodup : l.Nodup) (test : β → Bool) (hself : ∀ y ∈ f x ++ g x, test y = true)
    (hother : ∀ z ∈ l, z ≠ x → ∀ y ∈ f z ++ g z, test y = false)
    (hperm : (l.flatMap f).Perm (l.flatMap g)) : (f x).Perm (g x) := by
  obtain ⟨before, behind, rfl⟩ := append_of_mem hx
  have hne : ∀ z ∈ before ++ behind, z ≠ x := by
    intro z hz heq
    have hnot := (nodup_cons.mp (nodup_middle.mp hnodup)).1
    exact hnot (heq ▸ hz)
  have hpart : ∀ part : ι → List β, (∀ z y, y ∈ part z → y ∈ f z ++ g z) →
      ((before ++ x :: behind).flatMap part).filter test = part x := by
    intro part hmem
    have hempty : ∀ z ∈ before ++ behind, (part z).filter test = [] := by
      intro z hz
      apply filter_eq_nil_iff.mpr
      intro y hy
      have hz' : z ∈ before ++ x :: behind := by
        rw [mem_append, mem_cons]
        exact (mem_append.mp hz).imp_right .inr
      simp [hother z hz' (hne z hz) y (hmem z y hy)]
    rw [filter_flatMap, flatMap_append, flatMap_cons, flatMap_eq_nil_iff.mpr
      (fun z hz => hempty z (mem_append_left _ hz)), flatMap_eq_nil_iff.mpr
      (fun z hz => hempty z (mem_append_right _ hz)), nil_append, append_nil]
    exact filter_eq_self.mpr fun y hy => hself y (hmem x y hy)
  have hfiltered := hperm.filter test
  rwa [hpart f fun z y hy => mem_append_left _ hy,
    hpart g fun z y hy => mem_append_right _ hy] at hfiltered

def leftText : SqlStatement → String
  | .binary _ (.name text _) _ => text
  | _ => ""

theorem leftText_of_mem (hequality : equality ∈ equalitiesOf rights table columnName) :
    leftText equality = table.tableName ++ "." ++ columnName := by
  obtain ⟨right, -, rfl⟩ := mem_map.mp hequality
  rfl

theorem firstColumnOnly_of_equalities (hnames : Unambiguous lefts)
    (hperm : (firstEqualities lefts rights).Perm (sharedEqualities lefts rights))
    (htable : table ∈ lefts) : FirstColumnOnly rights table := by
  apply firstColumnOnly_of_perm
  · intro column hcolumn other hother htext
    exact (hnames.qualified table htable table htable column hcolumn other hother htext).2
  · -- The equalities of the table are known by the names on their left.
    have htext : ∀ other : NamedTable, ∀ equality ∈ (other.columns.flatMap fun _ =>
          equalitiesOf rights other other.firstColumn) ++
          other.columns.flatMap (equalitiesOf rights other),
        ∃ column ∈ other.columns, leftText equality = other.tableName ++ "." ++ column := by
      intro other equality hequality
      rcases mem_append.mp hequality with hmem | hmem
      · obtain ⟨-, -, hmem⟩ := mem_flatMap.mp hmem
        exact ⟨_, mem_cons_self, leftText_of_mem hmem⟩
      · obtain ⟨column, hcolumn, hmem⟩ := mem_flatMap.mp hmem
        exact ⟨column, hcolumn, leftText_of_mem hmem⟩
    apply perm_of_perm_flatMap htable (hnames.nodup.of_map _) (fun equality => leftText equality ∈
      table.columns.map (table.tableName ++ "." ++ ·)) _ _ hperm
    · intro equality hequality
      obtain ⟨column, hcolumn, heq⟩ := htext table equality hequality
      exact decide_eq_true (mem_map.mpr ⟨column, hcolumn, heq.symm⟩)
    · intro other hother hne equality hequality
      obtain ⟨column, hcolumn, heq⟩ := htext other equality hequality
      apply decide_eq_false
      rintro hmem
      obtain ⟨mine, hmine, hsame⟩ := mem_map.mp hmem
      rw [heq] at hsame
      have hname := (hnames.qualified table htable other hother mine hmine column hcolumn hsame).1
      exact hne (inj_on_of_nodup_map hnames.nodup hother htable hname.symm)

/-- What a table on the left of a natural join must be like. -/
structure Naturally (rights : List NamedTable) (table : NamedTable) : Prop where
  namesFit : NamesFit rights table.tableName table.firstColumn
  firstColumnOnly : FirstColumnOnly rights table

/-- The condition is right if all columns of each table on the left have one
name, or none of its columns is on the right, and the names of the right tables
are not longer.  It is right in no other case if the names on the left are
unambiguous. -/
theorem naturalJoinCondition_joinsNaturally (left right : JoinList) :
    ((∀ table ∈ left.tables, Naturally right.tables table) →
    ∃ condition, JoinsNaturally left right condition) ∧ (Unambiguous left.tables →
    (∃ condition, JoinsNaturally left right condition) →
    ∀ table ∈ left.tables, Naturally right.tables table) := by
  constructor
  · intro htables
    have hequalities : firstEqualities left.tables right.tables =
        sharedEqualities left.tables right.tables :=
      flatMap_congr fun table htable => flatMap_first_eq (htables table htable).firstColumnOnly
    refine ⟨conjunction .null (firstEqualities left.tables right.tables), ?_, ?_, ?_⟩
    · rw [naturalJoinCondition_eq, if_pos fun table htable => (htables table htable).namesFit]
    · rw [conjuncts_firstEqualities, hequalities]
    · intro hnone
      rw [hequalities, hnone]
      rfl
  · rintro hnames ⟨condition, hreturned, hperm, -⟩ table htable
    rw [naturalJoinCondition_eq] at hreturned
    split_ifs at hreturned with hfits
    cases hreturned
    rw [conjuncts_firstEqualities] at hperm
    exact ⟨hfits table htable, firstColumnOnly_of_equalities hnames hperm htable⟩

namespace NaturalJoin

def names (tableName : String) : JoinList where
  statement := .join .noJoin (.tableAlias .null (.name tableName .unknown) 0
    (.columnListAlias .null (.name "ID" .unknown) .null .unknown
    (.columnListAlias .null (.name "NAME" .unknown) .null .unknown .null))) .null .null
  tables := [⟨tableName, "ID", ["NAME"]⟩]
  reads := rfl
  tables_ne_nil := cons_ne_nil _ _

def ids (tableName : String) : JoinList where
  statement := .join .noJoin (.tableAlias .null (.name tableName .unknown) 0
    (.columnListAlias .null (.name "ID" .unknown) .null .unknown .null)) .null .null
  tables := [⟨tableName, "ID", []⟩]
  reads := rfl
  tables_ne_nil := cons_ne_nil _ _

end NaturalJoin

open NaturalJoin in
/-- The ids are compared twice and the names never; and a longer name does not
fit. -/
theorem natural_join_differs : naturalJoinCondition (names "N1").statement (names "N2").statement =
    some (.binary .booleanAnd (columnEquality "N1" "N2" "ID") (columnEquality "N1" "N2" "ID")) ∧
    (∀ condition, ¬ JoinsNaturally (names "N1") (names "N2") condition) ∧
    ∀ condition, ¬ JoinsNaturally (ids "N1") (ids "OTHER") condition := by
  have hreturned : naturalJoinCondition (names "N1").statement (names "N2").statement =
      some (.binary .booleanAnd (columnEquality "N1" "N2" "ID")
      (columnEquality "N1" "N2" "ID")) := by
    decide +kernel
  refine ⟨hreturned, ?_, ?_⟩
  · rintro condition ⟨hcondition, hperm, -⟩
    cases hcondition
    have hname : columnEquality "N1" "N2" "NAME" ∈
        sharedEqualities (names "N1").tables (names "N2").tables := by
      decide +kernel
    have hnot : columnEquality "N1" "N2" "NAME" ∉ conjuncts
        (.binary .booleanAnd (columnEquality "N1" "N2" "ID") (columnEquality "N1" "N2" "ID")) := by
      decide +kernel
    exact hnot (hperm.mem_iff.mpr hname)
  · rintro condition ⟨hcondition, -, -⟩
    cases hcondition

end Octo
