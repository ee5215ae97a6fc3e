/-
Statements that differ in the unique ids of their tables and in references
that have become nulls.  Such a rewriting amounts to a change of the
environment: the rewritten statement means in an environment what the
statement means in the changed one.
-/
import Octo.QueryMeaning

namespace Octo

open OuterJoins List Option SqlStatement Function

namespace SqlStatement

/-- `NUL_VALUE`, as `replace_table_references` puts it in. -/
def nulStatement : SqlStatement := value ⟨.nulValue, ""⟩ .unknown

/-- Statements that hold no reference and no table. -/
def isLeaf : SqlStatement → Bool
  | null | value _ _ | name _ _ | column _ _ _ _ _ | table _ _ _
  | keyword _ _ _ => true
  | _ => false

/-- Statements that stand for one value. -/
def isScalar : SqlStatement → Bool
  | columnListAlias _ _ _ _ _ | columnList _ _ | casBranch _ _ _
  | tableAlias _ _ _ _ | join _ _ _ _ | select _ _ _ _ _ _
  | setOperation _ _ _ => false
  | _ => true

/-- Statements that stand for a list of values. -/
def isList : SqlStatement → Bool
  | columnListAlias _ _ _ _ _ | columnList _ _ | casBranch _ _ _ => true
  | _ => false

/-- The ids in a statement: `true` marks the table of a reference, `false` the
id of a table.  What a reference means, column lists, keywords and ORDER BY do
not count. -/
def occurrences : SqlStatement → List (Bool × ℕ)
  | columnAlias _ tableId => [(true, tableId)]
  | calculated inner _ | coerced inner _ _ => occurrences inner
  | binary _ operand0 operand1 => occurrences operand0 ++ occurrences operand1
  | unary _ operand => occurrences operand
  | functionCall label parameters =>
    occurrences label ++ occurrences parameters
  | cas subject branches optionalElse =>
    occurrences subject ++ (occurrences branches ++ occurrences optionalElse)
  | casBranch condition result next =>
    occurrences condition ++ (occurrences result ++ occurrences next)
  | columnList entry next => occurrences entry ++ occurrences next
  | columnListAlias entries _ _ _ next =>
    occurrences entries ++ occurrences next
  | tableAlias source _ id _ => (false, id) :: occurrences source
  | join _ source condition next =>
    occurrences source ++ (occurrences condition ++ occurrences next)
  | select selectList tableList whereExpression _ _ _ =>
    occurrences selectList ++ (occurrences tableList ++ occurrences whereExpression)
  | setOperation _ operand0 operand1 =>
    occurrences operand0 ++ occurrences operand1
  | _ => []

theorem mem_occurrences_of_uniqueId {s : SqlStatement} {id : ℕ}
    (hid : s.uniqueId = some id) : (false, id) ∈ s.occurrences := by
  cases s with
  | tableAlias =>
    cases hid
    exact mem_cons_self
  | _ => cases hid

end SqlStatement

/-- `t` is `s` with the references changed by `ref`, to another table or to
null, and the ids of its tables by `bind`. -/
inductive Rewritten (ref : ℕ → Option ℕ) (bind : ℕ → ℕ) : SqlStatement → SqlStatement → Prop
  | leaf {s : SqlStatement} (hleaf : s.isLeaf) : Rewritten ref bind s s
  | reference {c c' : SqlStatement} {i j : ℕ}
      (hname : c'.columnName = c.columnName) (href : ref i = some j) :
      Rewritten ref bind (.columnAlias c i) (.columnAlias c' j)
  | nulled {c : SqlStatement} {i : ℕ} (href : ref i = none) :
      Rewritten ref bind (.columnAlias c i) SqlStatement.nulStatement
  | calculated {x x' : SqlStatement} {d : TableStatement.DataType} (hx : Rewritten ref bind x x') :
      Rewritten ref bind (.calculated x d) (.calculated x' d)
  | coerced {x x' : SqlStatement} {c : SqlValueType}
      {d : TableStatement.DataType} (hx : Rewritten ref bind x x') :
      Rewritten ref bind (.coerced x c d) (.coerced x' c d)
  | binary {o : BinaryOperation} {x x' y y' : SqlStatement}
      (hx : Rewritten ref bind x x') (hy : Rewritten ref bind y y') :
      Rewritten ref bind (.binary o x y) (.binary o x' y')
  | unary {o : UnaryOperation} {x x' : SqlStatement} (hx : Rewritten ref bind x x') :
      Rewritten ref bind (.unary o x) (.unary o x')
  | functionCall {x x' y y' : SqlStatement} (hx : Rewritten ref bind x x')
      (hy : Rewritten ref bind y y') : Rewritten ref bind (.functionCall x y) (.functionCall x' y')
  | cas {x x' y y' z z' : SqlStatement} (hx : Rewritten ref bind x x')
      (hy : Rewritten ref bind y y') (hz : Rewritten ref bind z z') :
      Rewritten ref bind (.cas x y z) (.cas x' y' z')
  | casBranch {x x' y y' z z' : SqlStatement} (hx : Rewritten ref bind x x')
      (hy : Rewritten ref bind y y') (hz : Rewritten ref bind z z') :
      Rewritten ref bind (.casBranch x y z) (.casBranch x' y' z')
  | columnList {x x' y y' : SqlStatement} (hx : Rewritten ref bind x x')
      (hy : Rewritten ref bind y y') : Rewritten ref bind (.columnList x y) (.columnList x' y')
  | columnListAlias {x x' a k k' y y' : SqlStatement}
      {t : TableStatement.ValueType} (hx : Rewritten ref bind x x') (hy : Rewritten ref bind y y') :
      Rewritten ref bind (.columnListAlias x a k t y) (.columnListAlias x' a k' t y')
  | tableAlias {x x' a l l' : SqlStatement} {i : ℕ} (hx : Rewritten ref bind x x') :
      Rewritten ref bind (.tableAlias x a i l) (.tableAlias x' a (bind i) l')
  | join {t : JoinType} {x x' y y' z z' : SqlStatement}
      (hx : Rewritten ref bind x x') (hy : Rewritten ref bind y y') (hz : Rewritten ref bind z z') :
      Rewritten ref bind (.join t x y z) (.join t x' y' z')
  | select {x x' y y' z z' o o' w u u' : SqlStatement}
      (hx : Rewritten ref bind x x') (hy : Rewritten ref bind y y') (hz : Rewritten ref bind z z') :
      Rewritten ref bind (.select x y z o w u) (.select x' y' z' o' w u')
  | setOperation {t : SetOption} {x x' y y' : SqlStatement}
      (hx : Rewritten ref bind x x') (hy : Rewritten ref bind y y') :
      Rewritten ref bind (.setOperation t x y) (.setOperation t x' y')

theorem forall_mem_append₃ {α : Type*} {p : α → Prop} {x y z : List α} :
    (∀ a ∈ x ++ (y ++ z), p a) ↔ (∀ a ∈ x, p a) ∧ (∀ a ∈ y, p a) ∧ ∀ a ∈ z, p a := by
  rw [forall_mem_append, forall_mem_append]

section Shape

variable {ref : ℕ → Option ℕ} {bind : ℕ → ℕ} {s t : SqlStatement} (hrw : Rewritten ref bind s t)
include hrw

theorem Rewritten.isNull_eq : t.isNull = s.isNull := by
  cases hrw <;> rfl

theorem Rewritten.storedTable_eq : t.storedTable = s.storedTable := by
  cases hrw <;> rfl

theorem Rewritten.columnName_eq : t.columnName = s.columnName := by
  cases hrw <;> rfl

theorem Rewritten.uniqueId_eq : t.uniqueId = s.uniqueId.map bind := by
  cases hrw with
  | leaf hleaf =>
    cases s with
    | tableAlias => cases hleaf
    | _ => rfl
  | _ => rfl

theorem Rewritten.tableIds_eq : t.tableIds = s.tableIds.map bind := by
  induction hrw with
  | @leaf s hleaf =>
    cases s with
    | join => cases hleaf
    | _ => rfl
  | join hx hy hz ihx ihy ihz =>
    simp only [tableIds, ihz, hx.uniqueId_eq, map_append]
    rw [toList_map]
  | _ => rfl

theorem Rewritten.aliasNames_eq : t.aliasNames = s.aliasNames := by
  induction hrw with
  | columnListAlias hx hy ihx ihy =>
    simp [aliasNames, ihy]
  | _ => rfl

theorem Rewritten.outputNames_eq : t.outputNames = s.outputNames := by
  induction hrw with
  | select hx hy hz =>
    simp [outputNames, hx.aliasNames_eq]
  | tableAlias hx ihx => simp [outputNames, ihx]
  | setOperation hx hy ihx ihy => simp [outputNames, ihx]
  | _ => rfl

end Shape

section Meaning

variable {V : Type} (I : Interpretation V)

/-- The environment in which a rewritten statement is read. -/
def readEnv (ref : ℕ → Option ℕ) (env : Env V) : Env V := fun id =>
  match ref id with
  | some j => env j
  | none => nullRow I

/-- A row put into the renamed table is read back in the table. -/
def Commutes (ref : ℕ → Option ℕ) (bind : ℕ → ℕ) (id : ℕ) : Prop :=
  ref id = some (bind id) ∧ ∀ i, ref i = some (bind id) → i = id

variable {I} {ref : ℕ → Option ℕ} {bind : ℕ → ℕ}

variable {id : ℕ}

theorem Commutes.readEnv_update (hid : Commutes ref bind id) (env : Env V)
    (row : NamedRow V) : readEnv I ref (update env (bind id) row) =
    update (readEnv I ref env) id row := by
  funext i
  by_cases hi : i = id
  · subst hi
    simp [readEnv, hid.1]
  · rw [update_of_ne hi]
    unfold readEnv
    cases href : ref i with
    | none => rfl
    | some j =>
      have hj : j ≠ bind id := by
        rintro rfl
        exact hi (hid.2 i href)
      simp [update_of_ne hj]

variable {bound : List ℕ}

theorem readEnv_withoutRows (hbound : ∀ id ∈ bound, Commutes ref bind id)
    (env : Env V) : readEnv I ref (withoutRows I env (bound.map bind)) =
    withoutRows I (readEnv I ref env) bound := by
  induction bound generalizing env with
  | nil => rfl
  | cons id bound ih =>
    have hid := hbound id mem_cons_self
    have hrest : ∀ j ∈ bound, Commutes ref bind j :=
      fun j hj => hbound j (mem_cons_of_mem _ hj)
    have hstep := ih hrest (update env (bind id) (nullRow I))
    rw [hid.readEnv_update] at hstep
    exact hstep

theorem maps_tableJoin (hid : Commutes ref bind id) {rows rows' : Env V → Multiset (NamedRow V)}
    {cond cond' : Env V → Bool} (hrows : ∀ env, rows' env = rows (readEnv I ref env))
    (hcond : ∀ env, cond' env = cond (readEnv I ref env)) :
    Join.Maps (readEnv I ref) (tableJoin (bind id) rows' cond') (tableJoin id rows cond) where
  extend env row := hid.readEnv_update env row
  rows := hrows
  cond := hcond

theorem map_outerJoin (hid : Commutes ref bind id) (hbound : ∀ j ∈ bound, Commutes ref bind j)
    {join join' : Join (Env V) (NamedRow V)} (hmaps : Join.Maps (readEnv I ref) join' join)
    (type : JoinType) (outer : Env V) (tuples : Multiset (Env V)) :
    (outerJoin I type (bind id) join' outer (bound.map bind) tuples).map (readEnv I ref) =
    outerJoin I type id join (readEnv I ref outer) bound (tuples.map (readEnv I ref)) := by
  have hleft : (join'.leftRest (update · (bind id) (nullRow I))
        tuples).map (readEnv I ref) =
      join.leftRest (update · id (nullRow I)) (tuples.map (readEnv I ref)) :=
    hmaps.map_leftRest (fun env => hid.readEnv_update env (nullRow I)) tuples
  have hright : (join'.rightRest (join'.rows outer) (update
        (withoutRows I outer (bound.map bind)) (bind id)) tuples).map (readEnv I ref) =
      join.rightRest (join.rows (readEnv I ref outer)) (update
        (withoutRows I (readEnv I ref outer) bound) id) (tuples.map (readEnv I ref)) := by
    rw [← hmaps.rows, ← readEnv_withoutRows hbound]
    exact hmaps.map_rightRest (fun row => hid.readEnv_update _ row) _ tuples
  unfold outerJoin
  cases type <;>
    simp [hmaps.map_inner, hleft, hright]

theorem map_filter_readEnv (pending : Env V → Bool) {pending' : Env V → Bool}
    (hpending : ∀ env, pending' env = pending (readEnv I ref env)) (tuples : Multiset (Env V)) :
    (tuples.filter (pending' ·)).map (readEnv I ref) =
    (tuples.map (readEnv I ref)).filter (pending ·) := by
  rw [Multiset.filter_map]
  congr 1
  refine Multiset.filter_congr fun env _ => ?_
  rw [hpending, comp_apply]

variable (I) [DecidableEq V] (db : Database V)

/-- `t` means in an environment what `s` means in the environment read through
`ref`. -/
structure SameMeaning (ref : ℕ → Option ℕ) (bind : ℕ → ℕ) (s t : SqlStatement) : Prop where
  value : ∀ env, evaluate I db t env = evaluate I db s (readEnv I ref env)
  list : ∀ env, evaluateList I db t env = evaluateList I db s (readEnv I ref env)
  rows : ∀ env, queryRows I db t env = queryRows I db s (readEnv I ref env)
  source : ∀ env, sourceRows I db t env = sourceRows I db s (readEnv I ref env)
  tuples : ∀ (outer : Env V) (bound : List ℕ) (pending pending' : Env V → Bool)
    (tuples : Multiset (Env V)), (∀ id ∈ bound, Commutes ref bind id) →
    (∀ env, pending' env = pending (readEnv I ref env)) →
    (joined I db t outer (bound.map bind) pending' tuples).map (readEnv I ref) =
    joined I db s (readEnv I ref outer) bound pending (tuples.map (readEnv I ref))

variable {I db}

variable {s t : SqlStatement}

/-- Expressions and lists have no rows. -/
theorem SameMeaning.of_plain (hs : s.isScalar ∨ s.isList) (ht : t.isScalar ∨ t.isList)
    (hvalue : ∀ env, evaluate I db t env = evaluate I db s (readEnv I ref env))
    (hlist : ∀ env, evaluateList I db t env = evaluateList I db s (readEnv I ref env)) :
    SameMeaning I db ref bind s t := by
  have hnone : ∀ u : SqlStatement, u.isScalar ∨ u.isList → (∀ env,
      queryRows I db u env = 0 ∧ sourceRows I db u env = 0) ∧ ∀ outer bound pending tuples,
      joined I db u outer bound pending tuples = tuples.filter (pending ·) := by
    intro u hu
    cases u with
    | tableAlias | join | select | setOperation => rcases hu with hu | hu <;> cases hu
    | _ => simp [queryRows, sourceRows, joined]
  obtain ⟨hs, hsjoined⟩ := hnone s hs
  obtain ⟨ht, htjoined⟩ := hnone t ht
  refine ⟨hvalue, hlist, fun env => ?_, fun env => ?_, ?_⟩
  · rw [(hs _).1, (ht _).1]
  · rw [(hs _).2, (ht _).2]
  · intro outer bound pending pending' tuples _ hpending
    rw [hsjoined, htjoined]
    exact map_filter_readEnv pending hpending tuples

theorem SameMeaning.of_scalar (hs : s.isScalar) (ht : t.isScalar)
    (hvalue : ∀ env, evaluate I db t env = evaluate I db s (readEnv I ref env)) :
    SameMeaning I db ref bind s t := by
  have hnil : ∀ u : SqlStatement, u.isScalar → ∀ env, evaluateList I db u env = [] := by
    intro u hu env
    cases u with
    | columnListAlias | columnList | casBranch => cases hu
    | _ => simp [evaluateList]
  refine .of_plain (Or.inl hs) (Or.inl ht) hvalue fun env => ?_
  rw [hnil s hs, hnil t ht]

theorem SameMeaning.of_list (hs : s.isList) (ht : t.isList)
    (hlist : ∀ env, evaluateList I db t env = evaluateList I db s (readEnv I ref env)) :
    SameMeaning I db ref bind s t := by
  have hnull : ∀ u : SqlStatement, u.isList → ∀ env, evaluate I db u env = I.null := by
    intro u hu env
    cases u with
    | columnListAlias | columnList | casBranch => simp [evaluate]
    | _ => cases hu
  refine .of_plain (Or.inr hs) (Or.inr ht) (fun env => ?_) hlist
  rw [hnull s hs, hnull t ht]

/-- A FROM clause: the step of one join, the others by induction. -/
theorem SameMeaning.join {type : JoinType} {x x' y y' z z' : SqlStatement}
    (hx : SameMeaning I db ref bind x x') (hy : SameMeaning I db ref bind y y')
    (hz : SameMeaning I db ref bind z z') (hid : x'.uniqueId = x.uniqueId.map bind)
    (hcommutes : ∀ id, x.uniqueId = some id → Commutes ref bind id) (hnull : y'.isNull = y.isNull) :
    SameMeaning I db ref bind (.join type x y z) (.join type x' y' z') := by
  refine ⟨fun env => by simp only [evaluate], fun env => by simp only [evaluateList],
    fun env => by simp only [queryRows], fun env => by simp only [sourceRows], ?_⟩
  intro outer bound pending pending' tuples hbound hpending
  simp only [joined]
  cases hx' : x.uniqueId with
  | none =>
    rw [hid, hx']
    exact hz.tuples outer bound pending pending' tuples hbound hpending
  | some id =>
    have hcid := hcommutes id hx'
    have hbound' := forall_mem_cons.mpr ⟨hcid, hbound⟩
    have hcond : ∀ env, (y'.isNull || I.truth (evaluate I db y' env)) =
        (y.isNull || I.truth (evaluate I db y (readEnv I ref env))) :=
      fun env => by rw [hnull, hy.value]
    rw [hid, hx']
    simp only [map_some]
    cases type.isOuter with
    | true =>
      rw [if_pos rfl, if_pos rfl, ← map_filter_readEnv pending hpending,
        ← map_outerJoin hcid hbound (maps_tableJoin hcid hx.source hcond)]
      exact hz.tuples outer (id :: bound) _ _ _ hbound' fun _ => rfl
    | false =>
      rw [if_neg Bool.false_ne_true, if_neg Bool.false_ne_true,
        ← (maps_tableJoin hcid hx.source fun _ => rfl).map_inner]
      refine hz.tuples outer (id :: bound) _ _ _ hbound' fun env => ?_
      rw [hpending, hcond]

theorem SameMeaning.select {x x' y y' z z' o o' w u u' : SqlStatement}
    (hx : SameMeaning I db ref bind x x') (hy : SameMeaning I db ref bind y y')
    (hz : SameMeaning I db ref bind z z') (hnull : z'.isNull = z.isNull) :
    SameMeaning I db ref bind (.select x y z o w u) (.select x' y' z' o' w u') := by
  refine ⟨fun env => by simp only [evaluate], fun env => by simp only [evaluateList], fun env => ?_,
    fun env => by simp only [sourceRows], ?_⟩
  · have htuples := hy.tuples env [] (fun _ => true) (fun _ => true) {env} (by simp) fun _ => rfl
    have hlist : evaluateList I db x' = evaluateList I db x ∘ readEnv I ref := funext hx.list
    have hwhere : ∀ tuple, (z'.isNull || I.truth (evaluate I db z' tuple)) =
        (z.isNull || I.truth (evaluate I db z (readEnv I ref tuple))) :=
      fun tuple => by rw [hnull, hz.value]
    simp only [queryRows]
    rw [hlist, ← Multiset.map_map, map_filter_readEnv (fun tuple =>
        z.isNull || I.truth (evaluate I db z tuple)) hwhere,
      ← Multiset.map_singleton, ← htuples]
    rfl
  · intro outer bound pending pending' tuples _ hpending
    exact map_filter_readEnv pending hpending tuples

/-- A rewritten statement means what the statement means, in the environment
read through `ref`. -/
theorem Rewritten.sameMeaning (hrw : Rewritten ref bind s t)
    (hcommutes : ∀ o ∈ s.occurrences, o.1 = false → Commutes ref bind o.2) :
    SameMeaning I db ref bind s t := by
  induction hrw with
      try obtain ⟨hcx, hcy⟩ := forall_mem_append.mp hcommutes
  | @leaf s hleaf =>
    cases s with
    | null | value | name | column | table | keyword =>
      exact .of_scalar rfl rfl fun env => by simp only [evaluate]
    | _ => cases hleaf
  | reference hname href =>
    refine .of_scalar rfl rfl fun env => ?_
    simp [evaluate, readEnv, href, hname]
  | nulled href =>
    refine .of_scalar rfl rfl fun env => ?_
    simp [nulStatement, evaluate, readEnv, href, I.literal_nulValue, nullRow]
  | calculated hx ihx | coerced hx ihx | unary hx ihx =>
    have hx := ihx hcommutes
    refine .of_scalar rfl rfl fun env => ?_
    simp [evaluate, hx.value]
  | binary hx hy ihx ihy | functionCall hx hy ihx ihy =>
    have hx := ihx hcx
    have hy := ihy hcy
    refine .of_scalar rfl rfl fun env => ?_
    simp [evaluate, hx.value, hx.list, hx.rows, hy.value, hy.list, hy.rows]
  | cas hx hy hz ihx ihy ihz =>
    obtain ⟨hcx, hcy, hcz⟩ := forall_mem_append₃.mp hcommutes
    have hx := ihx hcx
    have hy := ihy hcy
    have hz := ihz hcz
    refine .of_scalar rfl rfl fun env => ?_
    simp [evaluate, hx.value, hy.list, hz.value]
  | casBranch hx hy hz ihx ihy ihz =>
    obtain ⟨hcx, hcy, hcz⟩ := forall_mem_append₃.mp hcommutes
    have hx := ihx hcx
    have hy := ihy hcy
    have hz := ihz hcz
    refine .of_list rfl rfl fun env => ?_
    simp [evaluateList, hx.value, hy.value, hz.list]
  | columnList hx hy ihx ihy | columnListAlias hx hy ihx ihy =>
    have hx := ihx hcx
    have hy := ihy hcy
    refine .of_list rfl rfl fun env => ?_
    simp [evaluateList, hx.value, hx.list, hy.list]
  | tableAlias hx ihx =>
    have hstored := hx.storedTable_eq
    have hnames := hx.outputNames_eq
    have hx := ihx (forall_mem_cons.mp hcommutes).2
    refine ⟨fun env => ?_, fun env => ?_, fun env => ?_, fun env => ?_, ?_⟩
    · simp [evaluate, hx.rows]
    · simp [evaluateList]
    · simp [queryRows, hx.rows]
    · simp [sourceRows, hstored, hnames, hx.rows]
    · intro outer bound pending pending' tuples _ hpending
      exact map_filter_readEnv pending hpending tuples
  | join hx hy hz ihx ihy ihz =>
    obtain ⟨hcx, hcy, hcz⟩ := forall_mem_append₃.mp hcommutes
    refine SameMeaning.join (ihx hcx) (ihy hcy) (ihz hcz) hx.uniqueId_eq ?_ hy.isNull_eq
    intro id hid
    exact hcx _ (mem_occurrences_of_uniqueId hid) rfl
  | select hx hy hz ihx ihy ihz =>
    obtain ⟨hcx, hcy, hcz⟩ := forall_mem_append₃.mp hcommutes
    exact SameMeaning.select (ihx hcx) (ihy hcy) (ihz hcz) hz.isNull_eq
  | setOperation hx hy ihx ihy =>
    have hx := ihx hcx
    have hy := ihy hcy
    refine ⟨fun env => ?_, fun env => ?_, fun env => ?_, fun env => ?_, ?_⟩
    · simp [evaluate, hx.rows, hy.rows]
    · simp [evaluateList]
    · simp [queryRows, hx.rows, hy.rows]
    · simp only [sourceRows]
    · intro outer bound pending pending' tuples _ hpending
      simp only [joined]
      exact map_filter_readEnv pending hpending tuples

end Meaning

section Ids

variable {ref : ℕ → Option ℕ} {bind : ℕ → ℕ} {s t : SqlStatement}

/-- An id that the rewriting leaves as it is. -/
def IsKept (ref : ℕ → Option ℕ) (bind : ℕ → ℕ) : Bool × ℕ → Prop
  | (true, i) => ref i = some i
  | (false, i) => bind i = i

theorem Rewritten.refl (hkept : ∀ o ∈ s.occurrences, IsKept ref bind o) :
    Rewritten ref bind s s := by
  induction s with
      try obtain ⟨hx, hy⟩ := forall_mem_append.mp hkept
  | columnAlias c i => exact .reference rfl (hkept (true, i) mem_cons_self)
  | calculated x d ihx => exact .calculated (ihx hkept)
  | coerced x c d ihx => exact .coerced (ihx hkept)
  | unary o x ihx => exact .unary (ihx hkept)
  | tableAlias x a i l ihx =>
    obtain ⟨hi, hx⟩ := forall_mem_cons.mp hkept
    have halias : Rewritten ref bind (.tableAlias x a i l)
        (.tableAlias x a (bind i) l) := .tableAlias (ihx hx)
    rwa [hi] at halias
  | binary o x y ihx ihy =>
    exact .binary (ihx hx) (ihy hy)
  | functionCall x y ihx ihy =>
    exact .functionCall (ihx hx) (ihy hy)
  | columnList x y ihx ihy =>
    exact .columnList (ihx hx) (ihy hy)
  | columnListAlias x a k t y ihx _ _ ihy =>
    exact .columnListAlias (ihx hx) (ihy hy)
  | setOperation t x y ihx ihy =>
    exact .setOperation (ihx hx) (ihy hy)
  | cas x y z ihx ihy ihz =>
    obtain ⟨hx, hy, hz⟩ := forall_mem_append₃.mp hkept
    exact .cas (ihx hx) (ihy hy) (ihz hz)
  | casBranch x y z ihx ihy ihz =>
    obtain ⟨hx, hy, hz⟩ := forall_mem_append₃.mp hkept
    exact .casBranch (ihx hx) (ihy hy) (ihz hz)
  | join t x y z ihx ihy ihz =>
    obtain ⟨hx, hy, hz⟩ := forall_mem_append₃.mp hkept
    exact .join (ihx hx) (ihy hy) (ihz hz)
  | select x y z o w u ihx ihy ihz =>
    obtain ⟨hx, hy, hz⟩ := forall_mem_append₃.mp hkept
    exact .select (ihx hx) (ihy hy) (ihz hz)
  | _ => exact .leaf rfl

end Ids

section Scope

namespace SqlStatement

/-- Every reference is to a table of the scope or of a FROM clause around
it. -/
def inScope (scope : List ℕ) : SqlStatement → Prop
  | columnAlias _ tableId => tableId ∈ scope
  | calculated inner _ | coerced inner _ _ => inner.inScope scope
  | binary _ operand0 operand1 =>
    operand0.inScope scope ∧ operand1.inScope scope
  | unary _ operand => operand.inScope scope
  | functionCall label parameters =>
    label.inScope scope ∧ parameters.inScope scope
  | cas subject branches optionalElse =>
    subject.inScope scope ∧ branches.inScope scope ∧ optionalElse.inScope scope
  | casBranch condition result next =>
    condition.inScope scope ∧ result.inScope scope ∧ next.inScope scope
  | columnList entry next => entry.inScope scope ∧ next.inScope scope
  | columnListAlias entries _ _ _ next =>
    entries.inScope scope ∧ next.inScope scope
  | tableAlias source _ _ _ => source.inScope scope
  | join _ source condition next =>
    source.inScope scope ∧ condition.inScope scope ∧ next.inScope scope
  | select selectList tableList whereExpression _ _ _ =>
    selectList.inScope (tableList.tableIds ++ scope) ∧
      tableList.inScope (tableList.tableIds ++ scope) ∧
      whereExpression.inScope (tableList.tableIds ++ scope)
  | setOperation _ operand0 operand1 =>
    operand0.inScope scope ∧ operand1.inScope scope
  | _ => True

variable {s : SqlStatement}

theorem mem_occurrences_of_mem_tableIds {id : ℕ}
    (hid : id ∈ s.tableIds) : (false, id) ∈ s.occurrences := by
  induction s with
  | join t x y z _ _ ihz =>
    simp only [tableIds, mem_append, mem_toList] at hid
    simp only [occurrences, mem_append]
    rcases hid with hx | hz
    · exact .inl (mem_occurrences_of_uniqueId hx)
    · exact .inr (.inr (ihz hz))
  | _ => cases hid

theorem inScope.mem {scope : List ℕ} (hs : s.inScope scope) {i : ℕ}
    (hi : (true, i) ∈ s.occurrences) : i ∈ scope ∨ (false, i) ∈ s.occurrences := by
  induction s generalizing scope with
  | columnAlias c j =>
    obtain rfl : i = j := by simpa [occurrences] using hi
    exact .inl hs
  | select x y z o w u ihx ihy ihz =>
    have htables : i ∈ y.tableIds ++ scope →
        i ∈ scope ∨ (false, i) ∈ (select x y z o w u).occurrences := by
      intro hmem
      rcases mem_append.mp hmem with hy | hscope
      · exact .inr (by
          simp [occurrences, mem_occurrences_of_mem_tableIds hy])
      · exact .inl hscope
    simp only [occurrences, mem_append] at hi
    simp only [occurrences, mem_append] at htables ⊢
    rcases hi with hi | hi | hi
    · rcases ihx hs.1 hi with h | h
      · exact htables (mem_append.mp h)
      · exact .inr (.inl h)
    · rcases ihy hs.2.1 hi with h | h
      · exact htables (mem_append.mp h)
      · exact .inr (.inr (.inl h))
    · rcases ihz hs.2.2 hi with h | h
      · exact htables (mem_append.mp h)
      · exact .inr (.inr (.inr h))
  | tableAlias x a j l ihx =>
    simp only [occurrences, mem_cons, Prod.mk.injEq, Bool.true_eq_false, false_and, false_or] at hi
    rcases ihx hs hi with h | h
    · exact .inl h
    · exact .inr (mem_cons_of_mem _ h)
  | calculated x d ihx | coerced x c d ihx => exact ihx hs hi
  | unary o x ihx => exact ihx hs hi
  | null | value | name | column | table | keyword => cases hi
  | _ =>
    simp only [occurrences, inScope, mem_append] at *
    grind

end SqlStatement

variable {ref : ℕ → Option ℕ} {bind : ℕ → ℕ} {s t : SqlStatement}

/-- A rewriting of a statement is in scope where its tables and references come
to lie. -/
theorem Rewritten.inScope (hrw : Rewritten ref bind s t)
    (hbind : ∀ o ∈ s.occurrences, o.1 = false → ref o.2 = some (bind o.2)) {scope scope' : List ℕ}
    (hscope : ∀ i ∈ scope, ∀ j, ref i = some j → j ∈ scope') (hs : s.inScope scope) :
    t.inScope scope' := by
  induction hrw generalizing scope scope' with
  | @leaf s hleaf =>
    cases s with
    | null | value | name | column | table | keyword => trivial
    | _ => cases hleaf
  | reference hname href => exact hscope _ hs _ href
  | nulled href => trivial
  | calculated hx ihx | coerced hx ihx => exact ihx hbind hscope hs
  | unary hx ihx => exact ihx hbind hscope hs
  | tableAlias hx ihx =>
    exact ihx (forall_mem_cons.mp hbind).2 hscope hs
  | binary hx hy ihx ihy | functionCall hx hy ihx ihy
  | columnList hx hy ihx ihy | columnListAlias hx hy ihx ihy
  | setOperation hx hy ihx ihy =>
    obtain ⟨hbx, hby⟩ := forall_mem_append.mp hbind
    exact ⟨ihx hbx hscope hs.1, ihy hby hscope hs.2⟩
  | cas hx hy hz ihx ihy ihz | casBranch hx hy hz ihx ihy ihz
  | join hx hy hz ihx ihy ihz =>
    obtain ⟨hbx, hby, hbz⟩ := forall_mem_append₃.mp hbind
    exact ⟨ihx hbx hscope hs.1, ihy hby hscope hs.2.1, ihz hbz hscope hs.2.2⟩
  | @select x x' y y' z z' o o' w u u' hx hy hz ihx ihy ihz =>
    obtain ⟨hbx, hby, hbz⟩ := forall_mem_append₃.mp hbind
    have hscope' : ∀ i ∈ y.tableIds ++ scope, ∀ j, ref i = some j → j ∈ y'.tableIds ++ scope' := by
      intro i hi j hj
      rw [hy.tableIds_eq, mem_append]
      rcases mem_append.mp hi with hid | hi
      · have hbi :=
          hby _ (mem_occurrences_of_mem_tableIds hid) rfl
        obtain rfl : j = bind i := some.inj (hj.symm.trans hbi)
        exact .inl (mem_map_of_mem hid)
      · exact .inr (hscope i hi j hj)
    exact ⟨ihx hbx hscope' hs.1, ihy hby hscope' hs.2.1, ihz hbz hscope' hs.2.2⟩

end Scope

end Octo
