/-
Copying a statement and changing its table references, as the treatment of
outer joins does.  Both walks leave places out: a calculated value and the ELSE
of a CASE, and the one that puts nulls in also all but the first value of a list
and the tables of a FROM clause.
-/
import Octo.RewrittenStatement

namespace Octo

open List Equiv
open Option hiding map_map

/-- `copy_sql_statement`.  A set operation is not known to it.  The keywords of
a list cell are lost: those of the new cell are copied onto themselves.  The
copies of aliases and of the keywords of a SELECT, which hold values only, are
equal to them; column lists and ORDER BY are shared with the statement.  The
target of a coercion is copied as if it were a text, which gives no
statement. -/
def copySqlStatement : SqlStatement → Option SqlStatement
  | .calculated inner dataType => do
    return .calculated (← copySqlStatement inner) dataType
  | .columnAlias column tableId => do
    return .columnAlias (← copySqlStatement column) tableId
  | .binary operation operand0 operand1 => do
    return .binary operation (← copySqlStatement operand0) (← copySqlStatement operand1)
  | .unary operation operand => do
    return .unary operation (← copySqlStatement operand)
  | .functionCall functionName parameters => do
    return .functionCall (← copySqlStatement functionName) (← copySqlStatement parameters)
  | .cas value branches optionalElse => do
    return .cas (← copySqlStatement value) (← copySqlStatement branches)
      (← copySqlStatement optionalElse)
  | .casBranch condition value next => do
    return .casBranch (← copySqlStatement condition)
      (← copySqlStatement value) (← copySqlStatement next)
  | .columnList value next => do
    return .columnList (← copySqlStatement value) (← copySqlStatement next)
  | .columnListAlias columnList aliasName _ type next => do
    return .columnListAlias (← copySqlStatement columnList) aliasName .null
      type (← copySqlStatement next)
  | .tableAlias table aliasName uniqueId columnList => do
    return .tableAlias (← copySqlStatement table) aliasName uniqueId columnList
  | .join type value condition next => do
    return .join type (← copySqlStatement value)
      (← copySqlStatement condition) (← copySqlStatement next)
  | .select selectList tableList whereExpression orderExpression optionalWords setOperation => do
    return .select (← copySqlStatement selectList)
      (← copySqlStatement tableList) (← copySqlStatement whereExpression)
      orderExpression optionalWords setOperation
  | .setOperation _ _ _ | .coerced _ _ _ => none
  | leaf => some leaf

def updateTableReferences (old new : ℕ) : SqlStatement → Option SqlStatement
  | .columnAlias column tableId => do
    return .columnAlias (← updateTableReferences old new column)
      (if tableId = old then new else tableId)
  | .binary operation operand0 operand1 => do
    return .binary operation (← updateTableReferences old new operand0)
      (← updateTableReferences old new operand1)
  | .unary operation operand => do
    return .unary operation (← updateTableReferences old new operand)
  | .functionCall functionName parameters => do
    return .functionCall (← updateTableReferences old new functionName)
      (← updateTableReferences old new parameters)
  | .cas value branches optionalElse => do
    return .cas (← updateTableReferences old new value)
      (← updateTableReferences old new branches) optionalElse
  | .casBranch condition value next => do
    return .casBranch (← updateTableReferences old new condition)
      (← updateTableReferences old new value) (← updateTableReferences old new next)
  | .columnList value next => do
    return .columnList (← updateTableReferences old new value)
      (← updateTableReferences old new next)
  | .columnListAlias columnList aliasName keywords type next => do
    return .columnListAlias (← updateTableReferences old new columnList)
      aliasName keywords type (← updateTableReferences old new next)
  | .tableAlias table aliasName uniqueId columnList => do
    return .tableAlias (← updateTableReferences old new table) aliasName
      (if uniqueId = old then new else uniqueId) columnList
  | .join type value condition next => do
    return .join type (← updateTableReferences old new value)
      (← updateTableReferences old new condition) (← updateTableReferences old new next)
  | .select selectList tableList whereExpression orderExpression optionalWords setOperation => do
    return .select (← updateTableReferences old new selectList)
      (← updateTableReferences old new tableList) (← updateTableReferences old new whereExpression)
      (← updateTableReferences old new orderExpression) optionalWords setOperation
  | .setOperation _ _ _ => none
  | .keyword _ _ _ => none
  | other => some other

/-- `replace_table_references`.  In a list of values only the first one is
visited, except for the parameters of a function, where `whole` is set. -/
def replaceTableReferences (old : ℕ) : Bool → SqlStatement → Option SqlStatement
  | _, .columnAlias column tableId =>
    some (if tableId = old then SqlStatement.nulStatement
      else .columnAlias column tableId)
  | _, .binary operation operand0 operand1 => do
    return .binary operation (← replaceTableReferences old false operand0)
      (← replaceTableReferences old false operand1)
  | _, .unary operation operand => do
    return .unary operation (← replaceTableReferences old false operand)
  | _, .functionCall functionName parameters => do
    return .functionCall (← replaceTableReferences old false functionName)
      (← replaceTableReferences old true parameters)
  | _, .cas value branches optionalElse => do
    return .cas (← replaceTableReferences old false value)
      (← replaceTableReferences old false branches) optionalElse
  | _, .casBranch condition value next => do
    return .casBranch (← replaceTableReferences old false condition)
      (← replaceTableReferences old false value) (← replaceTableReferences old false next)
  | true, .columnList value next => do
    return .columnList (← replaceTableReferences old false value)
      (← replaceTableReferences old true next)
  | false, .columnList value next => do
    return .columnList (← replaceTableReferences old false value) next
  | _, .columnListAlias columnList aliasName keywords type next => do
    return .columnListAlias (← replaceTableReferences old false columnList)
      aliasName keywords type (← replaceTableReferences old false next)
  | _, .tableAlias table aliasName uniqueId columnList => do
    return .tableAlias (← replaceTableReferences old false table) aliasName
      uniqueId (← replaceTableReferences old false columnList)
  | _, .join type value condition next => do
    return .join type value (← replaceTableReferences old false condition)
      (← replaceTableReferences old false next)
  | _, .select selectList tableList whereExpression orderExpression optionalWords setOperation => do
    return .select (← replaceTableReferences old false selectList)
      (← replaceTableReferences old false tableList)
      (← replaceTableReferences old false whereExpression)
      (← replaceTableReferences old false orderExpression) optionalWords setOperation
  | _, .setOperation _ _ _ => none
  | _, .keyword _ _ _ => none
  | _, .column _ _ _ _ _ => none
  | _, other => some other

/-- An id in a statement, and which of the walks come to it. -/
structure Mark where
  updated : Bool
  replaced : Bool
  isReference : Bool
  id : ℕ

namespace SqlStatement

/-- The ids of a statement, below a place that the walks come to as the first
two arguments say. -/
def marks (updated replaced : Bool) : Bool → SqlStatement → List Mark
  | _, columnAlias _ tableId => [⟨updated, replaced, true, tableId⟩]
  | _, calculated inner _ | _, coerced inner _ _ =>
    marks false false false inner
  | _, binary _ operand0 operand1 =>
    marks updated replaced false operand0 ++ marks updated replaced false operand1
  | _, unary _ operand => marks updated replaced false operand
  | _, functionCall label parameters =>
    marks updated replaced false label ++ marks updated replaced true parameters
  | _, cas subject branches optionalElse =>
    marks updated replaced false subject ++ (marks updated replaced false branches ++
      marks false false false optionalElse)
  | _, casBranch condition result next =>
    marks updated replaced false condition ++
      (marks updated replaced false result ++ marks updated replaced false next)
  | whole, columnList entry next =>
    marks updated replaced false entry ++ marks updated (replaced && whole) whole next
  | _, columnListAlias entries _ _ _ next =>
    marks updated replaced false entries ++ marks updated replaced false next
  | _, tableAlias source _ id _ =>
    ⟨updated, replaced, false, id⟩ :: marks updated replaced false source
  | _, join _ source condition next =>
    marks updated false false source ++ (marks updated replaced false condition ++
      marks updated replaced false next)
  | _, select selectList tableList whereExpression _ _ _ =>
    marks updated replaced false selectList ++ (marks updated replaced false tableList ++
      marks updated replaced false whereExpression)
  | _, setOperation _ operand0 operand1 =>
    marks updated replaced false operand0 ++ marks updated replaced false operand1
  | _, _ => []

/-- The ids of a statement that is walked from its root. -/
def allMarks (s : SqlStatement) : List Mark := s.marks true true false

section

-- The equations are made here, not by the proofs that wait for them.
attribute [local simp] marks copySqlStatement updateTableReferences replaceTableReferences

end

theorem marks_map_occurrence (s : SqlStatement) (updated replaced whole : Bool) :
    (s.marks updated replaced whole).map (fun m => (m.isReference, m.id)) =
      s.occurrences := by
  induction s generalizing updated replaced whole <;>
    simp [marks, occurrences, *]

/-- No walk comes back to what lies below a place it did not come to. -/
theorem updated_of_mem_marks {s : SqlStatement} {replaced whole : Bool} {m : Mark}
    (hm : m ∈ s.marks false replaced whole) : m.updated = false := by
  induction s generalizing replaced whole <;>
    simp only [marks, mem_append, mem_cons, not_mem_nil, or_false] at hm <;>
    grind

theorem replaced_of_mem_marks {s : SqlStatement} {updated whole : Bool} {m : Mark}
    (hm : m ∈ s.marks updated false whole) : m.replaced = false := by
  induction s generalizing updated whole <;>
    simp only [marks, Bool.false_and, mem_append, mem_cons, not_mem_nil, or_false] at hm <;>
    grind

end SqlStatement

open SqlStatement

section Copy

variable {s t : SqlStatement}

theorem copySqlStatement_rewritten (h : copySqlStatement s = some t) : Rewritten some id s t := by
  induction s generalizing t with
  | setOperation | coerced => cases h
  | null | value | name | column | table | keyword =>
    cases h
    exact .leaf rfl
  | _ =>
    simp only [copySqlStatement, Option.pure_def, bind_some_iff, Option.some.injEq] at h
    grind [Rewritten, Rewritten.columnName_eq]

/-- A copy has the same ids in the same places. -/
theorem Rewritten.marks_of_some (hrw : Rewritten some id s t) (updated replaced whole : Bool) :
    t.marks updated replaced whole = s.marks updated replaced whole := by
  induction hrw generalizing updated replaced whole with
  | leaf => rfl
  | reference hname href =>
    cases href
    rfl
  | nulled href => cases href
  | _ => simp_all only [SqlStatement.marks, id_eq]

end Copy

section Update

variable {old new : ℕ} {s t : SqlStatement}

/-- What `update_table_references` does to an id. -/
def Mark.rename (old new : ℕ) (m : Mark) : Mark :=
  if m.updated ∧ m.id = old then { m with id := new } else m

theorem map_rename_marks (s : SqlStatement) (replaced whole : Bool) :
    (s.marks false replaced whole).map (Mark.rename old new) = s.marks false replaced whole := by
  conv_rhs => rw [← map_id (s.marks false replaced whole)]
  refine map_congr_left fun m hm => ?_
  simp [Mark.rename, updated_of_mem_marks hm]

theorem updateTableReferences_marks (h : updateTableReferences old new s = some t)
    (replaced whole : Bool) : t.marks true replaced whole =
    (s.marks true replaced whole).map (Mark.rename old new) := by
  induction s generalizing t replaced whole with
  | setOperation | keyword => cases h
  | null | value | name | column | table =>
    cases h
    rfl
  | calculated x d | coerced x c d =>
    cases h
    exact (map_rename_marks x false false).symm
  | _ =>
    simp only [updateTableReferences, Option.pure_def, bind_some_iff, Option.some.injEq] at h
    simp only [SqlStatement.marks, map_append, map_cons, map_nil, map_rename_marks]
    grind [SqlStatement.marks, Mark.rename]

theorem updateTableReferences_columnName (h : updateTableReferences old new s = some t) :
    t.columnName = s.columnName := by
  cases s <;>
    simp only [updateTableReferences, Option.pure_def, bind_some_iff, Option.some.injEq,
      reduceCtorEq] at h <;>
    grind [SqlStatement.columnName]

theorem rewritten_swap_refl {updated replaced whole : Bool}
    (hold : ∀ m ∈ s.marks updated replaced whole, m.id ≠ old)
    (hnew : ∀ m ∈ s.marks updated replaced whole, m.id ≠ new) :
    Rewritten (fun i => some (swap old new i)) (swap old new) s s := by
  refine .refl fun o ho => ?_
  rw [← s.marks_map_occurrence updated replaced whole] at ho
  obtain ⟨m, hm, rfl⟩ := mem_map.mp ho
  have hfix : swap old new m.id = m.id :=
    swap_apply_of_ne_of_ne (hold m hm) (hnew m hm)
  cases href : m.isReference with
  | true => exact congrArg some hfix
  | false => exact hfix

/-- Where the new id does not occur and the old one only where it is found, the
walk exchanges the two. -/
theorem updateTableReferences_rewritten {replaced whole : Bool}
    (h : updateTableReferences old new s = some t)
    (hnew : ∀ m ∈ s.marks true replaced whole, m.id ≠ new)
    (hold : ∀ m ∈ s.marks true replaced whole, m.updated = false → m.id ≠ old) :
    Rewritten (fun i => some (swap old new i)) (swap old new) s t := by
  have hswap : ∀ i, i ≠ new → (if i = old then new else i) = swap old new i := by
    intro i hi
    by_cases hio : i = old
    · rw [if_pos hio, hio, swap_apply_left]
    · rw [if_neg hio, swap_apply_of_ne_of_ne hio hi]
  induction s generalizing t replaced whole with
    try simp only [updateTableReferences, Option.pure_def, bind_some_iff, Option.some.injEq] at h
  | setOperation | keyword => cases h
  | null | value | name | column | table =>
    cases h
    exact .leaf rfl
  | calculated | coerced =>
    cases h
    exact rewritten_swap_refl (fun m hm => hold m hm (updated_of_mem_marks hm)) hnew
  | cas x y z ihx ihy =>
    obtain ⟨x', hx, y', hy, rfl⟩ := h
    obtain ⟨hnx, hny, hnz⟩ := forall_mem_append₃.mp hnew
    obtain ⟨hox, hoy, hoz⟩ := forall_mem_append₃.mp hold
    exact .cas (ihx hx hnx hox) (ihy hy hny hoy) (rewritten_swap_refl
      (fun m hm => hoz m hm (updated_of_mem_marks hm)) hnz)
  | columnAlias c i =>
    obtain ⟨c', hc, rfl⟩ := h
    have hi : i ≠ new := hnew _ mem_cons_self
    exact .reference (updateTableReferences_columnName hc) (congrArg some (hswap i hi).symm)
  | tableAlias x a i l ihx =>
    obtain ⟨x', hx, rfl⟩ := h
    obtain ⟨hi, hnx⟩ := forall_mem_cons.mp hnew
    rw [hswap i hi]
    exact .tableAlias (ihx hx hnx (forall_mem_cons.mp hold).2)
  | unary o x ihx =>
    obtain ⟨x', hx, rfl⟩ := h
    exact .unary (ihx hx hnew hold)
  | binary _ x y ihx ihy | functionCall x y ihx ihy | columnList x y ihx ihy
  | columnListAlias x _ _ _ y ihx _ _ ihy =>
    obtain ⟨x', hx, y', hy, rfl⟩ := h
    obtain ⟨hnx, hny⟩ := forall_mem_append.mp hnew
    obtain ⟨hox, hoy⟩ := forall_mem_append.mp hold
    constructor
    · exact ihx hx hnx hox
    · exact ihy hy hny hoy
  | casBranch x y z ihx ihy ihz | join _ x y z ihx ihy ihz
  | select x y z _ _ _ ihx ihy ihz =>
    obtain ⟨x', hx, y', hy, z', hz, h⟩ := h
    obtain ⟨hnx, hny, hnz⟩ := forall_mem_append₃.mp hnew
    obtain ⟨hox, hoy, hoz⟩ := forall_mem_append₃.mp hold
    -- a SELECT also has its ORDER BY rewritten
    first | obtain rfl := h | obtain ⟨o', -, rfl⟩ := h
    constructor
    · exact ihx hx hnx hox
    · exact ihy hy hny hoy
    · exact ihz hz hnz hoz

end Update

section Replace

variable {old : ℕ} {whole : Bool} {s t : SqlStatement}

/-- References to one table become nulls. -/
def nullRef (old id : ℕ) : Option ℕ := if id = old then none else some id

/-- The references that `replace_table_references` takes away. -/
def Mark.isReplaced (old : ℕ) (m : Mark) : Bool :=
  m.replaced && m.isReference && m.id = old

theorem filter_isReplaced_marks (s : SqlStatement) (updated whole : Bool) :
    (s.marks updated false whole).filter (!Mark.isReplaced old ·) =
      s.marks updated false whole := by
  refine filter_eq_self.mpr fun m hm => ?_
  simp [Mark.isReplaced, replaced_of_mem_marks hm]

theorem replaceTableReferences_marks (h : replaceTableReferences old whole s = some t)
    (updated : Bool) : t.marks updated true whole =
    (s.marks updated true whole).filter (!Mark.isReplaced old ·) := by
  induction s generalizing t updated whole with
    try simp only [replaceTableReferences, Option.pure_def, bind_some_iff, Option.some.injEq] at h
  | setOperation | keyword | column => cases h
  | null | value | name | table =>
    cases h
    rfl
  | calculated x d | coerced x c d =>
    cases h
    exact (filter_isReplaced_marks x false false).symm
  | columnAlias c i =>
    cases h
    by_cases hi : i = old
    · simp [hi, SqlStatement.marks, SqlStatement.nulStatement, Mark.isReplaced]
    · simp [hi, SqlStatement.marks, Mark.isReplaced]
  | columnList x y ihx ihy =>
    cases whole <;>
      simp only [replaceTableReferences, Option.pure_def, bind_some_iff, Option.some.injEq] at h
    · obtain ⟨x', hx, rfl⟩ := h
      simp [SqlStatement.marks, filter_append, filter_isReplaced_marks, ihx hx]
    · obtain ⟨x', hx, y', hy, rfl⟩ := h
      simp [SqlStatement.marks, filter_append, ihx hx, ihy hy]
  | tableAlias x a i l ihx =>
    obtain ⟨x', hx, l', hl, rfl⟩ := h
    simp [SqlStatement.marks, ihx hx, Mark.isReplaced]
  | _ =>
    simp only [SqlStatement.marks, filter_append, filter_isReplaced_marks]
    grind [SqlStatement.marks]

/-- The walk puts nulls for the table, if it finds all references to it. -/
theorem replaceTableReferences_rewritten {updated : Bool}
    (h : replaceTableReferences old whole s = some t)
    (hold : ∀ m ∈ s.marks updated true whole, m.replaced = false → m.isReference → m.id ≠ old) :
    Rewritten (nullRef old) id s t := by
  have hkept : ∀ (u : SqlStatement) (updated replaced whole : Bool),
      (∀ m ∈ u.marks updated replaced whole, m.isReference → m.id ≠ old) →
      Rewritten (nullRef old) id u u := by
    intro u updated replaced whole hu
    refine .refl fun o ho => ?_
    rw [← u.marks_map_occurrence updated replaced whole] at ho
    obtain ⟨m, hm, rfl⟩ := mem_map.mp ho
    cases hkind : m.isReference with
    | true => exact if_neg (hu m hm hkind)
    | false => rfl
  induction s generalizing t updated whole with
    try simp only [replaceTableReferences, Option.pure_def, bind_some_iff, Option.some.injEq] at h
  | setOperation | keyword | column => cases h
  | null | value | name | table =>
    cases h
    exact .leaf rfl
  | columnAlias c i =>
    cases h
    by_cases hi : i = old
    · rw [if_pos hi]
      exact .nulled (if_pos hi)
    · rw [if_neg hi]
      exact .reference rfl (if_neg hi)
  | calculated | coerced =>
    cases h
    exact hkept _ false false false fun m hm => hold m hm (replaced_of_mem_marks hm)
  | columnList x y ihx ihy =>
    obtain ⟨hox, hoy⟩ := forall_mem_append.mp hold
    cases whole <;>
      simp only [replaceTableReferences, Option.pure_def, bind_some_iff, Option.some.injEq] at h
    · obtain ⟨x', hx, rfl⟩ := h
      exact .columnList (ihx hx hox) (hkept y updated false false
        fun m hm => hoy m hm (replaced_of_mem_marks hm))
    · obtain ⟨x', hx, y', hy, rfl⟩ := h
      exact .columnList (ihx hx hox) (ihy hy hoy)
  | tableAlias x a i l ihx =>
    obtain ⟨x', hx, l', hl, rfl⟩ := h
    have halias : Rewritten (nullRef old) id (.tableAlias x a i l) (.tableAlias x' a (id i) l') :=
      .tableAlias (ihx hx (forall_mem_cons.mp hold).2)
    exact halias
  | cas x y z ihx ihy =>
    obtain ⟨x', hx, y', hy, rfl⟩ := h
    obtain ⟨hox, hoy, hoz⟩ := forall_mem_append₃.mp hold
    exact .cas (ihx hx hox) (ihy hy hoy) (hkept z false false false
      fun m hm => hoz m hm (replaced_of_mem_marks hm))
  | join k x y z ihx ihy ihz =>
    obtain ⟨y', hy, z', hz, rfl⟩ := h
    obtain ⟨hox, hoy, hoz⟩ := forall_mem_append₃.mp hold
    exact .join (hkept x updated false false fun m hm =>
      hox m hm (replaced_of_mem_marks hm)) (ihy hy hoy) (ihz hz hoz)
  | unary o x ihx =>
    obtain ⟨x', hx, rfl⟩ := h
    exact .unary (ihx hx hold)
  | binary _ x y ihx ihy | functionCall x y ihx ihy
  | columnListAlias x _ _ _ y ihx _ _ ihy =>
    obtain ⟨x', hx, y', hy, rfl⟩ := h
    obtain ⟨hox, hoy⟩ := forall_mem_append.mp hold
    constructor
    · exact ihx hx hox
    · exact ihy hy hoy
  | casBranch x y z ihx ihy ihz | select x y z _ _ _ ihx ihy ihz =>
    obtain ⟨x', hx, y', hy, z', hz, h⟩ := h
    obtain ⟨hox, hoy, hoz⟩ := forall_mem_append₃.mp hold
    first | obtain rfl := h | obtain ⟨o', -, rfl⟩ := h
    constructor
    · exact ihx hx hox
    · exact ihy hy hoy
    · exact ihz hz hoz

end Replace

/-- The loop that gives every table of a copied statement a new id. -/
def renumberTables : List ℕ → SqlStatement → ℕ → Option (SqlStatement × ℕ)
  | [], stmt, planId => some (stmt, planId)
  | uniqueId :: uniqueIds, stmt, planId => do
    let stmt ← updateTableReferences uniqueId planId stmt
    renumberTables uniqueIds stmt (planId + 1)

/-- What the loop does to an id. -/
def Mark.renumber : List ℕ → ℕ → Mark → Mark
  | [], _, m => m
  | i :: ids, n, m => Mark.renumber ids (n + 1) (m.rename i n)

section Renumber

variable {i : ℕ}

theorem Mark.renumber_of_not_mem {m : Mark}
    (hm : m.updated → m.id ∉ ids) : m.renumber ids n = m := by
  induction ids generalizing n with
  | nil => rfl
  | cons i ids ih =>
    have hrename : m.rename i n = m := by
      refine if_neg fun hi => hm hi.1 ?_
      rw [hi.2]
      exact mem_cons_self
    rw [Mark.renumber, hrename]
    exact ih fun hup hmem => hm hup (mem_cons_of_mem _ hmem)

/-- New ids are not below the first one that is given out. -/
theorem Mark.le_renumber {m : Mark} (hids : ∀ i ∈ ids, i < n) (hup : m.updated)
    (hmem : m.id ∈ ids) : n ≤ (m.renumber ids n).id := by
  induction ids generalizing n with
  | nil => cases hmem
  | cons i ids ih =>
    obtain ⟨hi, hrest⟩ := forall_mem_cons.mp hids
    by_cases hmi : m.id = i
    · have hrename : m.rename i n = { m with id := n } := if_pos ⟨hup, hmi⟩
      have hnew : (m.rename i n).renumber ids (n + 1) = m.rename i n := by
        refine Mark.renumber_of_not_mem fun _ hn => ?_
        rw [hrename] at hn
        exact lt_irrefl n (hrest n hn)
      rw [Mark.renumber, hnew, hrename]
    · have hrename : m.rename i n = m := if_neg fun h => hmi h.2
      have hlater : n + 1 ≤ (m.renumber ids (n + 1)).id :=
        ih (fun j hj => Nat.lt_succ_of_lt (hrest j hj)) ((mem_cons.mp hmem).resolve_left hmi)
      rw [Mark.renumber, hrename]
      omega

variable {ids : List ℕ} {s t : SqlStatement} {n m : ℕ}

theorem renumberTables_planId (h : renumberTables ids s n = some (t, m)) : m = n + ids.length := by
  induction ids generalizing s n with
  | nil =>
    cases h
    rfl
  | cons i ids ih =>
    simp only [renumberTables, bind_some_iff] at h
    obtain ⟨u, hu, h⟩ := h
    rw [ih h, length_cons]
    omega

theorem renumberTables_marks (h : renumberTables ids s n = some (t, m)) :
    t.allMarks = s.allMarks.map (Mark.renumber ids n) := by
  induction ids generalizing s n with
  | nil =>
    cases h
    exact (map_id _).symm
  | cons i ids ih =>
    simp only [renumberTables, bind_some_iff] at h
    obtain ⟨u, hu, h⟩ := h
    rw [ih h, allMarks, updateTableReferences_marks hu, map_map]
    rfl

/-- An old id that is left was not renamed. -/
theorem mem_allMarks_of_renumber (h : renumberTables ids s n = some (t, m))
    (hids : ∀ i ∈ ids, i < n) {k : Mark} (hk : k ∈ t.allMarks)
    (hlt : k.id < n) : k ∈ s.allMarks ∧ (k.updated → k.id ∉ ids) := by
  rw [renumberTables_marks h] at hk
  obtain ⟨k', hk', rfl⟩ := mem_map.mp hk
  have hkept : k'.updated → k'.id ∉ ids := by
    intro hup hmem
    have hle := Mark.le_renumber hids hup hmem
    omega
  rw [Mark.renumber_of_not_mem hkept]
  exact ⟨hk', hkept⟩

theorem mem_allMarks_renumber (h : renumberTables ids s n = some (t, m)) {k : Mark}
    (hk : k ∈ s.allMarks) (hkept : k.updated → k.id ∉ ids) : k ∈ t.allMarks := by
  rw [renumberTables_marks h]
  exact mem_map.mpr ⟨k, hk, Mark.renumber_of_not_mem hkept⟩

/-- One round of the loop, on a statement whose ids are all in use already. -/
theorem updateTableReferences_swap (h : updateTableReferences i n s = some t)
    (hlt : ∀ k ∈ s.allMarks, k.id < n) (hi : ∀ k ∈ s.allMarks, k.updated = false → k.id ≠ i) :
    Rewritten (fun j => some (swap i n j)) (swap i n) s t ∧
    (∀ k ∈ t.allMarks, k.id < n + 1) ∧ ∀ ids :
    List ℕ, (∀ k ∈ s.allMarks, k.updated = false → k.id ∉ ids) →
    ∀ k ∈ t.allMarks, k.updated = false → k.id ∉ ids := by
  refine ⟨updateTableReferences_rewritten h (fun k hk => (hlt k hk).ne) hi,
    fun k hk => ?_, fun ids hids k hk hup => ?_⟩
  · rw [allMarks, updateTableReferences_marks h] at hk
    obtain ⟨k, hks, rfl⟩ := mem_map.mp hk
    unfold Mark.rename
    split_ifs
    · exact Nat.lt_succ_self n
    · exact Nat.lt_succ_of_lt (hlt k hks)
  · rw [allMarks, updateTableReferences_marks h] at hk
    obtain ⟨k, hks, rfl⟩ := mem_map.mp hk
    have hsame : k.rename i n = k := by
      refine if_neg fun hrename => ?_
      unfold Mark.rename at hup
      rw [if_pos hrename] at hup
      exact Bool.false_ne_true (hup.symm.trans hrename.1)
    rw [hsame] at hup ⊢
    exact hids k hks hup

theorem renumberTables_inScope (h : renumberTables ids s n = some (t, m))
    (hlt : ∀ k ∈ s.allMarks, k.id < n) (hids : ∀ k ∈ s.allMarks, k.updated = false → k.id ∉ ids)
    {scope : List ℕ} (hscope : ∀ j ∈ scope, j ∉ ids ∧ j < n) (hs : s.inScope scope) :
    t.inScope scope := by
  induction ids generalizing s n with
  | nil =>
    cases h
    exact hs
  | cons i ids ih =>
    simp only [renumberTables, bind_some_iff] at h
    obtain ⟨u, hu, h⟩ := h
    obtain ⟨hrw, hltu, hidsu⟩ := updateTableReferences_swap hu hlt
      fun k hk hup hi => hids k hk hup (hi ▸ mem_cons_self)
    have hstep : u.inScope scope := by
      refine hrw.inScope (fun o _ _ => rfl) (fun j hj k hk => ?_) hs
      obtain ⟨hji, hjn⟩ := hscope j hj
      cases hk
      rw [swap_apply_of_ne_of_ne (fun hi => hji (mem_cons.mpr (.inl hi))) hjn.ne]
      exact hj
    refine ih h hltu (hidsu ids fun k hk hup hmem =>
      hids k hk hup (mem_cons_of_mem _ hmem)) (fun j hj => ?_) hstep
    obtain ⟨hji, hjn⟩ := hscope j hj
    exact ⟨fun hmem => hji (mem_cons_of_mem _ hmem), by omega⟩

variable {V : Type} {I : Interpretation V}

/-- An environment in which the old and the new id hold no row. -/
theorem readEnv_swap {env : Env V} (hi : env i = nullRow I) (hn : env n = nullRow I) :
    readEnv I (fun j => some (swap i n j)) env = env := by
  funext j
  change env (swap i n j) = env j
  by_cases hji : j = i
  · rw [hji, swap_apply_left, hi, hn]
  · by_cases hjn : j = n
    · rw [hjn, swap_apply_right, hi, hn]
    · rw [swap_apply_of_ne_of_ne hji hjn]

variable [DecidableEq V] {db : Database V}

/-- Tables with new ids: the rows are the same where the old and the new ids
are not those of an enclosing query. -/
theorem renumberTables_rows (h : renumberTables ids s n = some (t, m))
    (hlt : ∀ k ∈ s.allMarks, k.id < n) (hids : ∀ k ∈ s.allMarks, k.updated = false → k.id ∉ ids)
    {env : Env V} (hold : ∀ i ∈ ids, env i = nullRow I) (hnew : ∀ i, n ≤ i → env i = nullRow I) :
    queryRows I db t env = queryRows I db s env := by
  induction ids generalizing s n with
  | nil =>
    cases h
    rfl
  | cons i ids ih =>
    simp only [renumberTables, bind_some_iff] at h
    obtain ⟨u, hu, h⟩ := h
    obtain ⟨hrw, hltu, hidsu⟩ := updateTableReferences_swap hu hlt
      fun k hk hup hi => hids k hk hup (hi ▸ mem_cons_self)
    have hsame : SameMeaning I db _ _ s u :=
      hrw.sameMeaning fun _ _ _ =>
        ⟨rfl, fun _ hi => (swap i n).injective (some.inj hi)⟩
    have hrest := ih h hltu (hidsu ids fun k hk hup hmem =>
      hids k hk hup (mem_cons_of_mem _ hmem))
      (fun j hj => hold j (mem_cons_of_mem _ hj))
      fun j hj => hnew j (by omega)
    rw [hrest, hsame.rows, readEnv_swap (hold i mem_cons_self) (hnew n le_rfl)]

end Renumber

end Octo
