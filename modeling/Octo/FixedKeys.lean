/-
The keys that the equalities of a WHERE fix.  The keys of a table stand
together; a cross reference puts other keys in their place, and a fixed key
should read only what stands before it.
-/
import Mathlib.Data.List.TakeWhile
import Octo.JoinedKeys

namespace Octo

open List Option

section Splice

variable {id : ℕ} {before block after : List SqlKey}

/-- The keys of a table, from the first to the last one, are replaced.  What
follows them costs the cross reference all its keys but the first. -/
theorem spliceXrefKeys_block (columnKey : SqlKey) (xrefKeys : List SqlKey)
    (hbefore : ∀ key ∈ before, key.uniqueId ≠ id) (hblock : ∀ key ∈ block, key.uniqueId = id)
    (hne : block ≠ []) (hafter : ∀ key ∈ after.head?, key.uniqueId ≠ id) :
    spliceXrefKeys id columnKey xrefKeys (before ++ (block ++ after)) = before ++ columnKey ::
    ((if after = [] then xrefKeys else xrefKeys.take 1) ++ after) := by
  obtain ⟨first, block, rfl⟩ := exists_cons_of_ne_nil hne
  have hfirst := hblock first mem_cons_self
  have hrest : (first :: block ++ after).dropWhile (·.uniqueId == id) =
      after := by
    rw [dropWhile_append_of_pos (by simpa using hblock)]
    cases after with
    | nil => rfl
    | cons key after => simp [hafter key rfl]
  have hhead : (first :: block ++ after).dropWhile (·.uniqueId != id) =
      first :: (block ++ after) := by simp [hfirst]
  rw [spliceXrefKeys, takeWhile_append_of_pos (by simpa using hbefore),
    dropWhile_append_of_pos (by simpa using hbefore), hhead]
  simp only [cons_append] at hrest ⊢
  rw [hrest]
  cases after <;> simp [hfirst]

/-- A list with a key of the table has this form. -/
theorem exists_block {keys : List SqlKey} (hkey : ∃ key ∈ keys, key.uniqueId = id) :
    ∃ before block after, keys = before ++ (block ++ after) ∧ (∀ key ∈ before, key.uniqueId ≠ id) ∧
    (∀ key ∈ block, key.uniqueId = id) ∧ block ≠ [] ∧ ∀ key ∈ after.head?, key.uniqueId ≠ id := by
  induction keys with
  | nil => simp at hkey
  | cons first rest ih =>
    by_cases hfirst : first.uniqueId = id
    · refine ⟨[], first :: rest.takeWhile (·.uniqueId == id),
        rest.dropWhile (·.uniqueId == id), by simp, by simp, ?_, cons_ne_nil _ _, ?_⟩
      · refine forall_mem_cons.mpr ⟨hfirst, fun key hkey => ?_⟩
        simpa using mem_takeWhile_imp hkey
      · intro key hkey
        have hnot := head?_dropWhile_not (·.uniqueId == id) rest
        rw [mem_def.mp hkey] at hnot
        simpa using hnot
    · obtain ⟨before, block, after, rfl, hbefore, hrest⟩ :=
        ih (by simpa [hfirst] using hkey)
      exact ⟨first :: before, block, after, rfl, forall_mem_cons.mpr ⟨hfirst, hbefore⟩, hrest⟩

end Splice

namespace KeyExample

def t : SqlTableAlias :=
  ⟨⟨"t", [⟨"k1"⟩, ⟨"k2"⟩, ⟨"c"⟩], [⟨"k1"⟩, ⟨"k2"⟩], cons_ne_nil _ _⟩, 1⟩

def u : SqlTableAlias := ⟨⟨"u", [⟨"id"⟩], [⟨"id"⟩], idColumn_ne_nil⟩, 2⟩

/-- FROM `tables`, each with its keys. -/
def criteria (tables : List SqlTableAlias) : Criteria where
  tableJoin := tables.foldr (fun ref => .node .tableJoin (.table ref)) .null
  keys := tables.flatMap fun ref => tableKeys ref.table ref.uniqueId none
  state := ⟨5, 0⟩

def equals (left right : LogicalPlan) : LogicalPlan :=
  .node .booleanEquals left right

def run (whereCond : LogicalPlan) (tables : List SqlTableAlias) : Option (List SqlKey) :=
  (lpOptimizeWhereMultiEqualAnds (optimizeLogicalPlan 2) whereCond
    (criteria tables)).map Criteria.keys

end KeyExample

/-- The key in front of the keys of a cross reference, fixed to a value. -/
def fixedColumnKey (ref : SqlColumnAlias) (value : KeyValue) : SqlKey :=
  lpOptFixKeyToConst value { lpMakeKey ref with isCrossReferenceKey := true }

/-- The keys of the cross reference for a column. -/
def xrefKeys (ref : SqlColumnAlias) : List SqlKey :=
  tableKeys ref.tableAlias.table ref.tableAlias.uniqueId
    (some ⟨ref.tableAlias.table, ref.column, ref.tableAlias.uniqueId⟩)

variable {order : ℕ → ℕ}

variable {ref : SqlColumnAlias}

/-- Where an equality generates a cross reference for a table, the table gets
the key of the column and all of its own keys exactly if it is the last one or
has a single key column. -/
theorem xref_keys_eq_iff {optimize : Optimizer} {order : ℕ → ℕ} {left right plan : LogicalPlan}
    {ref : SqlColumnAlias} {value : KeyValue} {criteria : Criteria}
    {before block after : List SqlKey} {state : OptimizerState}
    (hfix : equalityFix order criteria left right = some (some (ref, value)))
    (hkeys : criteria.keys = before ++ (block ++ after))
    (hbefore : ∀ key ∈ before, key.uniqueId ≠ ref.tableAlias.uniqueId)
    (hblock : ∀ key ∈ block, key.uniqueId = ref.tableAlias.uniqueId) (hne : block ≠ [])
    (hafter : ∀ key ∈ after, key.uniqueId ≠ ref.tableAlias.uniqueId)
    (hkey : lpGetKey criteria.keys ref = none)
    (hjoins : joinsTable ref.tableAlias.uniqueId criteria.tableJoin)
    (hplan : lpGenerateXrefPlan optimize ref.tableAlias.table ref.column
    ref.tableAlias.uniqueId criteria.state = some (plan, state)) :
    ∃ result, lpOptimizeWhereMultiEqualAndsHelper optimize order
    (.node .booleanEquals left right) criteria = some result ∧ (result.keys =
    before ++ fixedColumnKey ref value :: (xrefKeys ref ++ after) ↔
    after = [] ∨ ref.tableAlias.table.keyColumns.length = 1) := by
  simp only [lpOptimizeWhereMultiEqualAndsHelper, reduceCtorEq, ↓reduceIte, fixEquals, hfix,
    fixColumn, hkey, hjoins, hplan, bind_eq_bind, bind_some, some.injEq, exists_eq_left']
  rw [hkeys, spliceXrefKeys_block _ _ hbefore hblock hne
      fun key hkey => hafter key (mem_of_mem_head? hkey),
    ← fixedColumnKey, ← xrefKeys, append_cancel_left_eq, List.cons.injEq,
    and_iff_right rfl, append_cancel_right_eq]
  by_cases hlast : after = []
  · simp [hlast]
  · have hpos := length_pos_of_ne_nil ref.tableAlias.table.keyColumns_ne_nil
    rw [if_neg hlast, take_eq_self_iff, xrefKeys, tableKeys, length_map, length_zipIdx]
    simp only [hlast, false_or]
    omega

open KeyExample in
theorem last_table_keeps_its_keys :
    ∃ result, lpOptimizeWhereMultiEqualAndsHelper (optimizeLogicalPlan 2)
    (keyUniqueIdArray (criteria [u, t]).keys)
    (equals (.columnAlias ⟨t, ⟨"c"⟩⟩) (.value ⟨.numberLiteral, "5"⟩))
    (criteria [u, t]) = some result ∧ (result.keys = tableKeys u.table 2 none ++
    fixedColumnKey ⟨t, ⟨"c"⟩⟩ (.value ⟨.numberLiteral, "5"⟩) :: (xrefKeys ⟨t, ⟨"c"⟩⟩ ++ []) ↔
    ([] : List SqlKey) = [] ∨ t.table.keyColumns.length = 1) :=
  xref_keys_eq_iff (by decide) (by decide) (by decide)
    (by decide : ∀ key ∈ tableKeys t.table 1 none, key.uniqueId = 1)
    (by decide) (by decide) (by decide) (by decide) (some_get (by decide :
    (lpGenerateXrefPlan (optimizeLogicalPlan 2) t.table ⟨"c"⟩ 1 ⟨5, 0⟩).isSome)).symm

/-- The second key column of `t` gets no key if another table follows. -/
theorem xref_key_is_lost : (KeyExample.run (KeyExample.equals (.columnAlias ⟨KeyExample.t, ⟨"c"⟩⟩)
    (.value ⟨.numberLiteral, "5"⟩)) [KeyExample.t, KeyExample.u]).map
    (List.map fun key => key.keyColumn.map (·.column.columnName)) = some [some "c", some "k1",
    some "id"] := by decide

section Order

variable {keys : List SqlKey} {id id' : ℕ}

theorem keyUniqueIdArray_snoc (key : SqlKey) : keyUniqueIdArray (keys ++ [key]) id =
      if id = key.uniqueId then keys.length + 1
      else keyUniqueIdArray keys id := by
  simp [keyUniqueIdArray, zipIdx_append, Nat.add_comm]

theorem keyUniqueIdArray_le : keyUniqueIdArray keys id ≤ keys.length := by
  induction keys using List.reverseRecOn with
  | nil => exact le_rfl
  | append_singleton keys key ih =>
    rw [keyUniqueIdArray_snoc, length_append, length_singleton]
    split_ifs <;> omega

theorem keyUniqueIdArray_inj (hne : keyUniqueIdArray keys id ≠ 0)
    (hsame : keyUniqueIdArray keys id = keyUniqueIdArray keys id') : id = id' := by
  induction keys using List.reverseRecOn with
  | nil => exact absurd rfl hne
  | append_singleton keys key ih =>
    have hid := @keyUniqueIdArray_le keys id
    have hid' := @keyUniqueIdArray_le keys id'
    rw [keyUniqueIdArray_snoc] at hne
    rw [keyUniqueIdArray_snoc, keyUniqueIdArray_snoc] at hsame
    split_ifs at hne hsame with h h' h'
    · rw [h, h']
    · omega
    · omega
    · exact ih hne hsame

theorem keyUniqueIdArray_eq_zero_iff :
    keyUniqueIdArray keys id = 0 ↔ ∀ key ∈ keys, key.uniqueId ≠ id := by
  induction keys using List.reverseRecOn with
  | nil => simp [keyUniqueIdArray]
  | append_singleton keys key ih =>
    rw [keyUniqueIdArray_snoc]
    split_ifs with h
    · simp [h]
    · simp [ih, or_imp, forall_and, Ne.symm h]

end Order

/-- The keys as `join_tables` leaves them: those of a table stand together,
none is fixed, and every stored table has its keys, none of which is an output
key. -/
structure Criteria.Fresh (criteria : Criteria) : Prop where
  grouped : criteria.keys.Pairwise fun key later =>
    keyUniqueIdArray criteria.keys key.uniqueId ≤ keyUniqueIdArray criteria.keys later.uniqueId
  unfixed : ∀ key ∈ criteria.keys, key.value = none
  joined : ∀ id, joinsTable id criteria.tableJoin → keyUniqueIdArray criteria.keys id ≠ 0
  stored : ∀ key ∈ criteria.keys, joinsTable key.uniqueId criteria.tableJoin → key.keyColumn ≠ none

/-- What holds in every state of a run: the keys stand in the order of the
tables. -/
structure KeysOrdered (order : ℕ → ℕ) (criteria : Criteria) : Prop where
  sorted : criteria.keys.Pairwise fun key later =>
    order key.uniqueId ≤ order later.uniqueId
  mem_iff : ∀ id, (∃ key ∈ criteria.keys, key.uniqueId = id) ↔ order id ≠ 0
  joined : ∀ id, joinsTable id criteria.tableJoin → order id ≠ 0

theorem Criteria.Fresh.ordered {criteria : Criteria} (hfresh : criteria.Fresh) :
    KeysOrdered (keyUniqueIdArray criteria.keys) criteria where
  sorted := hfresh.grouped
  mem_iff id := by simp [keyUniqueIdArray_eq_zero_iff]
  joined := hfresh.joined

/-- A key that reads a column stands behind the table of the column. -/
def ReadsBefore (order : ℕ → ℕ) (keys : List SqlKey) : Prop :=
  ∀ key ∈ keys, ∀ ref, key.value = some (.columnAlias ref) →
    order ref.tableAlias.uniqueId < order key.uniqueId

theorem joinsTable_replaceTable {id id' : ℕ} {plan tableJoin : LogicalPlan}
    (hplan : ∀ ref, plan ≠ .table ref) (h : joinsTable id (replaceTable id' plan tableJoin)) :
    joinsTable id tableJoin := by
  induction tableJoin with
  | node type source next _ ih =>
    cases source with
    | table ref =>
      rw [replaceTable] at h
      split_ifs at h
      · cases plan with
        | table ref => exact absurd rfl (hplan ref)
        | _ => simp_all [joinsTable]
      · simp only [joinsTable, Bool.or_eq_true] at h ⊢
        exact h.imp_right ih
    | _ => exact ih h
  | _ => exact h

section Step

variable {fuel : ℕ} {order : ℕ → ℕ} {ref other : SqlColumnAlias}
  {value : KeyValue} {criteria result : Criteria}

/-- Other keys of a table in the place of some of its keys. -/
theorem KeysOrdered.replace {id : ℕ} {before block block' after : List SqlKey}
    (hordered : KeysOrdered order criteria) (hkeys : criteria.keys = before ++ (block ++ after))
    (hresult : result.keys = before ++ (block' ++ after))
    (hjoins : ∀ id, joinsTable id result.tableJoin → joinsTable id criteria.tableJoin)
    (hblock : ∀ key ∈ block, key.uniqueId = id) (hne : block ≠ [])
    (hblock' : ∀ key ∈ block', key.uniqueId = id) (hne' : block' ≠ []) :
    KeysOrdered order result := by
  obtain ⟨first, hfirst⟩ := exists_mem_of_ne_nil _ hne
  obtain ⟨first', hfirst'⟩ := exists_mem_of_ne_nil _ hne'
  obtain ⟨hsorted, hmem, hjoined⟩ := hordered
  rw [hkeys] at hsorted hmem
  simp only [pairwise_append, mem_append] at hsorted
  obtain ⟨hbefore, ⟨-, hafter, hthrough⟩, hacross⟩ := hsorted
  refine ⟨?_, ?_, fun id h => hjoined id (hjoins id h)⟩ <;> rw [hresult]
  · simp only [pairwise_append, mem_append]
    refine ⟨hbefore, ⟨pairwise_of_forall_mem_list ?_, hafter, ?_⟩, ?_⟩
    · intro key hkey later hlater
      rw [hblock' key hkey, hblock' later hlater]
    · intro key hkey
      rw [hblock' key hkey, ← hblock first hfirst]
      exact hthrough first hfirst
    · rintro key hkey later (hlater | hlater)
      · rw [hblock' later hlater, ← hblock first hfirst]
        exact hacross key hkey first (.inl hfirst)
      · exact hacross key hkey later (.inr hlater)
  · intro id'
    have hsame : (∃ key ∈ block', key.uniqueId = id') ↔ ∃ key ∈ block, key.uniqueId = id' := by
      constructor
      · rintro ⟨key, hkey, rfl⟩
        exact ⟨first, hfirst, by rw [hblock _ hfirst, hblock' _ hkey]⟩
      · rintro ⟨key, hkey, rfl⟩
        exact ⟨first', hfirst', by rw [hblock _ hkey, hblock' _ hfirst']⟩
    have hmem := hmem id'
    simp only [mem_append, or_and_right, exists_or, hsame] at hmem ⊢
    exact hmem

/-- The keys of the table of a column, from the first to the last one, are
replaced by those of a cross reference. -/
structure XrefSplice (ref : SqlColumnAlias) (value : KeyValue) (criteria result : Criteria)
    (before block after new : List SqlKey) : Prop where
  joins : joinsTable ref.tableAlias.uniqueId criteria.tableJoin
  less : ∀ id, joinsTable id result.tableJoin → joinsTable id criteria.tableJoin
  keys : criteria.keys = before ++ (block ++ after)
  others : ∀ key ∈ before, key.uniqueId ≠ ref.tableAlias.uniqueId
  own : ∀ key ∈ block, key.uniqueId = ref.tableAlias.uniqueId
  ne_nil : block ≠ []
  stops : ∀ key ∈ after.head?, key.uniqueId ≠ ref.tableAlias.uniqueId
  replaced : result.keys = before ++ (fixedColumnKey ref value :: new ++ after)
  xref : ∀ key ∈ new, key ∈ xrefKeys ref

/-- What fixing a column does: nothing, or one key of the column is fixed, or
the keys of its table are those of a cross reference. -/
theorem KeysOrdered.fixColumn_cases (hordered : KeysOrdered order criteria)
    (h : fixColumn (optimizeLogicalPlan fuel) ref value criteria = some result) :
    result = criteria ∨
    (∃ before key after, criteria.keys = before ++ ([key] ++ after) ∧ key.isFor ref ∧
      result = { criteria with keys := before ++ ([lpOptFixKeyToConst value key] ++ after) }) ∨
    ∃ before block after new, XrefSplice ref value criteria result before block after new := by
  unfold Octo.fixColumn at h
  cases hkey : lpGetKey criteria.keys ref with
  | some index =>
    obtain ⟨hlt, hfor, _⟩ := findIdx?_eq_some_iff_getElem.mp hkey
    obtain rfl : _ = result := by simpa [hkey] using h
    refine .inr (.inl ⟨criteria.keys.take index, criteria.keys[index],
      criteria.keys.drop (index + 1), by simp, hfor, ?_⟩)
    rw [modify_eq_take_cons_drop hlt]
    rfl
  | none =>
    by_cases hjoins : joinsTable ref.tableAlias.uniqueId criteria.tableJoin
    · simp only [hkey, hjoins, ↓reduceIte, bind_some_iff, Prod.exists, some.injEq] at h
      obtain ⟨plan, state, hplan, rfl⟩ := h
      obtain ⟨before, block, after, hkeys, hbefore, hblock, hne, hafter⟩ :=
        exists_block ((hordered.mem_iff _).mpr (hordered.joined _ hjoins))
      have hsplice := spliceXrefKeys_block (fixedColumnKey ref value)
        (xrefKeys ref) hbefore hblock hne hafter
      rw [← hkeys, ← cons_append] at hsplice
      refine .inr (.inr ⟨before, block, after, _, hjoins, fun id hid => ?_, hkeys, hbefore,
        hblock, hne, hafter, hsplice, fun key hmem => ?_⟩)
      · refine joinsTable_replaceTable ?_ hid
        rintro other rfl
        cases (optimizeLogicalPlan_source hplan).1
      · split_ifs at hmem
        · exact hmem
        · exact mem_of_mem_take hmem
    · exact .inl (by simpa [hkey, hjoins] using h.symm)

theorem mem_xrefKeys {key : SqlKey} (hkey : key ∈ xrefKeys ref) :
    key.uniqueId = ref.tableAlias.uniqueId ∧ key.value = none ∧ key.keyColumn ≠ none ∧
    key.crossReferenceOutputKey ≠ none := by
  obtain ⟨_, _, rfl⟩ := mem_map.mp hkey
  exact ⟨rfl, rfl, nofun, nofun⟩

/-- No key of the table can be fixed any more. -/
def Frozen (keys : List SqlKey) (id : ℕ) : Prop :=
  ∀ key ∈ keys, key.uniqueId = id → ¬(key.type = .advance ∧ key.crossReferenceOutputKey = none)

theorem Frozen.append {id : ℕ} {first second : List SqlKey} (hfirst : Frozen first id)
    (hsecond : Frozen second id) : Frozen (first ++ second) id :=
  fun key hkey => (mem_append.mp hkey).elim (hfirst key) (hsecond key)

theorem frozen_of_ne {id : ℕ} {keys : List SqlKey} (hne : ∀ key ∈ keys, key.uniqueId ≠ id) :
    Frozen keys id :=
  fun key hkey hid => absurd hid (hne key hkey)

theorem lpGetKeyIndex_nonneg_congr {keys : List SqlKey} (n m : ℕ) :
    0 ≤ lpGetKeyIndex ref keys n ↔ 0 ≤ lpGetKeyIndex ref keys m := by
  induction keys generalizing n m with
  | nil => rfl
  | cons key rest ih =>
    simp only [lpGetKeyIndex]
    split_ifs
    · rfl
    · simp
    · exact ih _ _

theorem lpGetKeyIndex_nonneg_append {first second : List SqlKey} {n : ℕ} :
    0 ≤ lpGetKeyIndex ref (first ++ second) n ↔ 0 ≤ lpGetKeyIndex ref first n ∨
    (∀ key ∈ first, key.keyColumn ≠ none) ∧ 0 ≤ lpGetKeyIndex ref second n := by
  induction first generalizing n with
  | nil => simp [lpGetKeyIndex]
  | cons key rest ih =>
    simp only [cons_append, lpGetKeyIndex, forall_mem_cons]
    split_ifs with hoption hfor
    · simp [hoption]
    · simp
    · rw [ih, @lpGetKeyIndex_nonneg_congr ref rest (n + 1) n,
        @lpGetKeyIndex_nonneg_congr ref second (n + 1) n]
      simp [hoption]

theorem lpGetKeyIndex_nonneg {keys : List SqlKey} {n : ℕ}
    (h : 0 ≤ lpGetKeyIndex ref keys n) : ∃ key ∈ keys, key.isFor ref := by
  induction keys generalizing n with
  | nil => simp [lpGetKeyIndex] at h
  | cons key rest ih =>
    simp only [lpGetKeyIndex] at h
    split_ifs at h with hoption hfor
    · simp at h
    · exact ⟨key, mem_cons_self, hfor⟩
    · obtain ⟨other, hother, hfor⟩ := ih h
      exact ⟨other, mem_cons_of_mem _ hother, hfor⟩

theorem SqlKey.uniqueId_of_isFor {key : SqlKey} (h : key.isFor ref) :
    key.uniqueId = ref.tableAlias.uniqueId := by
  simp only [SqlKey.isFor, Bool.and_eq_true, beq_iff_eq] at h
  exact h.1

/-- A column of another table is found behind keys that are no output keys as
it is without them. -/
theorem lpGetKeyIndex_nonneg_block {before block after : List SqlKey} {id : ℕ}
    (hid : ref.tableAlias.uniqueId ≠ id)
    (hblock : ∀ key ∈ block, key.uniqueId = id ∧ key.keyColumn ≠ none) :
    0 ≤ lpGetKeyIndex ref (before ++ (block ++ after)) 0 ↔
    0 ≤ lpGetKeyIndex ref (before ++ after) 0 := by
  have hnone : ¬0 ≤ lpGetKeyIndex ref block 0 := by
    intro h
    obtain ⟨key, hkey, hfor⟩ := lpGetKeyIndex_nonneg h
    exact hid (SqlKey.uniqueId_of_isFor hfor ▸ (hblock key hkey).1)
  rw [lpGetKeyIndex_nonneg_append, @lpGetKeyIndex_nonneg_append _ block,
    lpGetKeyIndex_nonneg_append]
  simp only [hnone, false_or, and_iff_right fun key hkey => (hblock key hkey).2]

/-- The column has a key, and no output key stands before it. -/
def FindsKey (keys : List SqlKey) (ref : SqlColumnAlias) : Prop :=
  0 ≤ lpGetKeyIndex ref keys 0

instance (keys : List SqlKey) (ref : SqlColumnAlias) : Decidable (FindsKey keys ref) :=
  inferInstanceAs (Decidable (_ ≤ _))

/-- What holds in every state of a run: a column has a key only if it had one
at the start or nothing of its table can be fixed any more, and output keys
stay. -/
structure KeysKept (initial : List SqlKey) (criteria : Criteria) : Prop
    extends KeysOrdered (keyUniqueIdArray initial) criteria where
  finds : ∀ ref, FindsKey criteria.keys ref →
    FindsKey initial ref ∨ Frozen criteria.keys ref.tableAlias.uniqueId
  output : (∃ key ∈ initial, key.keyColumn = none) → ∃ key ∈ criteria.keys, key.keyColumn = none
  stored : ∀ key ∈ criteria.keys, joinsTable key.uniqueId criteria.tableJoin → key.keyColumn ≠ none

theorem Criteria.Fresh.kept (hfresh : criteria.Fresh) : KeysKept criteria.keys criteria where
  toKeysOrdered := hfresh.ordered
  finds _ h := .inl h
  output h := h
  stored := hfresh.stored

theorem lpOptFixKeyToConst_spec (value : KeyValue) (key : SqlKey) :
    (lpOptFixKeyToConst value key).uniqueId = key.uniqueId ∧
    (lpOptFixKeyToConst value key).keyColumn = key.keyColumn ∧
    (lpOptFixKeyToConst value key = key ∨ (lpOptFixKeyToConst value key).type = .fix ∧
      (lpOptFixKeyToConst value key).value = some value) := by
  unfold lpOptFixKeyToConst
  split_ifs
  · exact ⟨rfl, rfl, .inr ⟨rfl, rfl⟩⟩
  · exact ⟨rfl, rfl, .inl rfl⟩

theorem lpGetKeyIndex_fixed {before after : List SqlKey} {key : SqlKey} {n : ℕ} :
    lpGetKeyIndex ref (before ++ ([lpOptFixKeyToConst value key] ++ after)) n =
    lpGetKeyIndex ref (before ++ ([key] ++ after)) n := by
  obtain ⟨hid, hcolumn, -⟩ := lpOptFixKeyToConst_spec value key
  induction before generalizing n with
  | nil => simp [lpGetKeyIndex, SqlKey.isFor, hid, hcolumn]
  | cons first rest ih =>
    have hrest := @ih (n + 1)
    simp only [singleton_append] at hrest
    simp only [cons_append, nil_append, lpGetKeyIndex, hrest]

/-- The keys of the table stand together, so none of them is behind the block. -/
theorem KeysOrdered.ne_of_mem_after {id : ℕ} {before block after initial : List SqlKey}
    (hordered : KeysOrdered (keyUniqueIdArray initial) criteria)
    (hkeys : criteria.keys = before ++ (block ++ after))
    (hblock : ∀ key ∈ block, key.uniqueId = id) (hne : block ≠ [])
    (hafter : ∀ key ∈ after.head?, key.uniqueId ≠ id) : ∀ key ∈ after, key.uniqueId ≠ id := by
  obtain ⟨first, hfirst⟩ := exists_mem_of_ne_nil _ hne
  have hsorted := hordered.sorted
  rw [hkeys] at hsorted
  simp only [pairwise_append, mem_append] at hsorted
  obtain ⟨-, ⟨-, hlater, hthrough⟩, -⟩ := hsorted
  have hid := (hordered.mem_iff id).mp ⟨first, by simp [hkeys, hfirst], hblock first hfirst⟩
  cases after with
  | nil => simp
  | cons head rest =>
    have hhead : head.uniqueId ≠ id := hafter head rfl
    have hle := hthrough first hfirst head mem_cons_self
    rw [hblock first hfirst] at hle
    have hlt := lt_of_le_of_ne hle fun heq => hhead (keyUniqueIdArray_inj hid heq).symm
    refine forall_mem_cons.mpr ⟨hhead, fun key hkey heq => ?_⟩
    have hkey := (pairwise_cons.mp hlater).1 key hkey
    rw [heq] at hkey
    omega

variable {initial : List SqlKey}

theorem KeysKept.fixKey {before after : List SqlKey} {key : SqlKey}
    (hkept : KeysKept initial criteria) (hkeys : criteria.keys = before ++ ([key] ++ after)) :
    KeysKept initial
      { criteria with keys := before ++ ([lpOptFixKeyToConst value key] ++ after) } := by
  obtain ⟨hid, hcolumn, hfix⟩ := lpOptFixKeyToConst_spec value key
  obtain ⟨hordered, hfinds, houtput, hstored⟩ := hkept
  have hordered : KeysOrdered (keyUniqueIdArray initial)
      { criteria with keys := before ++ ([lpOptFixKeyToConst value key] ++ after) } :=
    hordered.replace hkeys rfl (fun _ => id) (forall_mem_singleton.mpr rfl) (cons_ne_nil _ _)
      (forall_mem_singleton.mpr hid) (cons_ne_nil _ _)
  rw [hkeys] at hfinds houtput hstored
  refine ⟨hordered, fun other hother => ?_, fun hsome => ?_, ?_⟩
  · refine (hfinds other ?_).imp_right fun hfrozen => ?_
    · unfold FindsKey at hother ⊢
      rwa [lpGetKeyIndex_fixed] at hother
    · simp only [Frozen, forall_mem_append, forall_mem_singleton, hid] at hfrozen ⊢
      refine ⟨hfrozen.1, fun heq => ?_, hfrozen.2.2⟩
      rcases hfix with hfix | hfix
      · rw [hfix]
        exact hfrozen.2.1 heq
      · simp [hfix.1]
  · simpa [or_and_right, exists_or, hcolumn] using houtput hsome
  · simpa [or_imp, forall_and, hid, hcolumn] using hstored

theorem KeysKept.replace {before block after new : List SqlKey}
    (hkept : KeysKept initial criteria)
    (hsplice : XrefSplice ref value criteria result before block after new) :
    KeysKept initial result := by
  obtain ⟨hjoins, hless, hkeys, hbefore, hblock, hne, hafter, hresult, hnew⟩ := hsplice
  obtain ⟨hordered, hfinds, houtput, hstored⟩ := hkept
  rw [hkeys] at hfinds houtput hstored
  have hcolumns : ∀ key ∈ block, key.uniqueId = ref.tableAlias.uniqueId ∧
      key.keyColumn ≠ none := by
    intro key hkey
    have hid := hblock key hkey
    exact ⟨hid, hstored key (by simp [hkey]) (hid ▸ hjoins)⟩
  have hcolumns' : ∀ key ∈ fixedColumnKey ref value :: new,
      key.uniqueId = ref.tableAlias.uniqueId ∧ key.keyColumn ≠ none := by
    refine forall_mem_cons.mpr ⟨⟨rfl, nofun⟩, fun key hkey => ?_⟩
    obtain ⟨hid, -, hcolumn, -⟩ := mem_xrefKeys (hnew key hkey)
    exact ⟨hid, hcolumn⟩
  have hbehind := hordered.ne_of_mem_after hkeys hblock hne hafter
  refine ⟨hordered.replace hkeys hresult hless hblock hne (fun key hkey => (hcolumns' key hkey).1)
    (cons_ne_nil _ _), fun other hother => ?_, fun hsome => ?_, ?_⟩ <;> rw [hresult] at *
  · by_cases hid : other.tableAlias.uniqueId = ref.tableAlias.uniqueId
    · refine .inr ((frozen_of_ne (hid ▸ hbefore)).append
        (Frozen.append ?_ (frozen_of_ne (hid ▸ hbehind))))
      intro key hkey _ hfree
      rcases mem_cons.mp hkey with rfl | hkey
      · cases hfree.1
      · exact (mem_xrefKeys (hnew key hkey)).2.2.2 hfree.2
    · unfold FindsKey at hother hfinds
      rw [lpGetKeyIndex_nonneg_block hid hcolumns',
        ← lpGetKeyIndex_nonneg_block hid hcolumns] at hother
      refine (hfinds other hother).imp_right fun hfrozen => ?_
      simp only [Frozen, forall_mem_append] at hfrozen ⊢
      refine ⟨hfrozen.1, fun key hkey heq => ?_, hfrozen.2.2⟩
      exact absurd ((hcolumns' key hkey).1.symm.trans heq).symm hid
  · obtain ⟨key, hkey, hnone⟩ := houtput hsome
    simp only [mem_append] at hkey ⊢
    rcases hkey with hkey | hkey | hkey
    · exact ⟨key, .inl hkey, hnone⟩
    · exact absurd hnone (hcolumns key hkey).2
    · exact ⟨key, .inr (.inr hkey), hnone⟩
  · simp only [forall_mem_append] at hstored ⊢
    exact ⟨fun key hkey hid => hstored.1 key hkey (hless _ hid),
      fun key hkey _ => (hcolumns' key hkey).2,
      fun key hkey hid => hstored.2.2 key hkey (hless _ hid)⟩

theorem KeysKept.fixColumn (hkept : KeysKept initial criteria)
    (h : fixColumn (optimizeLogicalPlan fuel) ref value criteria = some result) :
    KeysKept initial result := by
  rcases hkept.toKeysOrdered.fixColumn_cases h with rfl | ⟨before, key, after, hkeys, -, rfl⟩ |
    ⟨before, block, after, new, hsplice⟩
  · exact hkept
  · exact hkept.fixKey hkeys
  · exact hkept.replace hsplice

/-- Fixing a column keeps what the keys read before them if what it is fixed to
comes from a table before it. -/
theorem ReadsBefore.fixColumn (hreads : ReadsBefore order criteria.keys)
    (hordered : KeysOrdered order criteria)
    (hvalue : order ref.tableAlias.uniqueId ≠ 0 → ∀ other, value = .columnAlias other →
    order other.tableAlias.uniqueId < order ref.tableAlias.uniqueId)
    (h : fixColumn (optimizeLogicalPlan fuel) ref value criteria = some result) :
    ReadsBefore order result.keys := by
  have hnew : order ref.tableAlias.uniqueId ≠ 0 → ∀ other,
      some value = some (.columnAlias other) →
        order other.tableAlias.uniqueId < order ref.tableAlias.uniqueId :=
    fun hne other heq => hvalue hne other (some.inj heq)
  rcases hordered.fixColumn_cases h with rfl | ⟨before, key, after, hkeys, hfor, rfl⟩ |
    ⟨before, block, after, new, hsplice⟩
  · exact hreads
  · obtain ⟨hid, -, hfix⟩ := lpOptFixKeyToConst_spec value key
    have hmem := (hordered.mem_iff key.uniqueId).mp ⟨key, by simp [hkeys], rfl⟩
    rw [hkeys] at hreads
    simp only [ReadsBefore, forall_mem_append, forall_mem_singleton, hid] at hreads ⊢
    refine ⟨hreads.1, fun other hother => ?_, hreads.2.2⟩
    rcases hfix with hfix | hfix
    · exact hreads.2.1 other (hfix ▸ hother)
    · rw [SqlKey.uniqueId_of_isFor hfor] at hmem ⊢
      exact hnew hmem other (hfix.2.symm.trans hother)
  · rw [hsplice.keys] at hreads
    rw [hsplice.replaced]
    simp only [ReadsBefore, forall_mem_append, forall_mem_cons] at hreads ⊢
    refine ⟨hreads.1, ⟨hnew (hordered.joined _ hsplice.joins), fun key hkey other hother => ?_⟩,
      hreads.2.2⟩
    cases (mem_xrefKeys (hsplice.xref key hkey)).2.1.symm.trans hother

/-- A key that cannot be fixed any more is left as it is. -/
theorem fixColumn_of_frozen {optimize : Optimizer} (hfinds : FindsKey criteria.keys ref)
    (hfrozen : Frozen criteria.keys ref.tableAlias.uniqueId) :
    fixColumn optimize ref value criteria = some criteria := by
  obtain ⟨key, hkey, hfor⟩ := lpGetKeyIndex_nonneg hfinds
  have hany : (criteria.keys.findIdx? (·.isFor ref)).isSome := by
    rw [findIdx?_isSome]
    exact any_eq_true.mpr ⟨key, hkey, hfor⟩
  obtain ⟨index, hindex⟩ := Option.isSome_iff_exists.mp hany
  obtain ⟨hlt, hfor, _⟩ := findIdx?_eq_some_iff_getElem.mp hindex
  have hsame : lpOptFixKeyToConst value criteria.keys[index] = criteria.keys[index] :=
    if_neg (hfrozen _ (getElem_mem hlt) (SqlKey.uniqueId_of_isFor hfor))
  have hkeys : criteria.keys.modify index (lpOptFixKeyToConst value) = criteria.keys := by
    rw [modify_eq_take_cons_drop hlt, hsame]
    simp
  simp only [Octo.fixColumn, lpGetKey, hindex, hkeys]

/-- A column of an enclosing query is not fixed. -/
theorem KeysOrdered.fixColumn_of_outside {optimize : Optimizer}
    (hordered : KeysOrdered order criteria) (hzero : order ref.tableAlias.uniqueId = 0) :
    fixColumn optimize ref value criteria = some criteria := by
  have hkey : lpGetKey criteria.keys ref = none := by
    refine findIdx?_eq_none_iff.mpr fun key hkey => Bool.eq_false_iff.mpr fun hfor => ?_
    exact (hordered.mem_iff _).mp ⟨key, hkey, SqlKey.uniqueId_of_isFor hfor⟩ hzero
  have hjoins : ¬joinsTable ref.tableAlias.uniqueId criteria.tableJoin :=
    fun hjoins => hordered.joined _ hjoins hzero
  simp [Octo.fixColumn, hkey, hjoins]

variable {left right : LogicalPlan}

theorem KeysKept.fixEquals (hkept : KeysKept initial criteria)
    (h : fixEquals (optimizeLogicalPlan fuel) order left right criteria = some result) :
    KeysKept initial result := by
  unfold Octo.fixEquals at h
  split at h
  · cases h
  · exact some.inj h ▸ hkept
  · exact hkept.fixColumn h

theorem KeysKept.run {whereCond : LogicalPlan} (hkept : KeysKept initial criteria)
    (h : lpOptimizeWhereMultiEqualAndsHelper (optimizeLogicalPlan fuel) order
      whereCond criteria = some result) : KeysKept initial result := by
  induction whereCond generalizing criteria result with
  | node type left right ihLeft ihRight =>
    simp only [lpOptimizeWhereMultiEqualAndsHelper] at h
    split_ifs at h
    · obtain ⟨middle, hleft, hright⟩ := bind_eq_some_iff.mp h
      exact ihRight (ihLeft hkept hleft) hright
    · exact hkept.fixEquals h
    · exact some.inj h ▸ hkept
  | _ => exact some.inj h ▸ hkept

end Step

section Refused

variable {keys initial : List SqlKey} {a b ref other : SqlColumnAlias} {value : KeyValue}
  {criteria result : Criteria} {order : ℕ → ℕ} {optimize : Optimizer}

theorem lpGetKeyIndex_neg {n : ℕ} (h : lpGetKeyIndex ref keys n < 0) :
    lpGetKeyIndex ref keys n = -1 ∨ lpGetKeyIndex ref keys n = -2 := by
  induction keys generalizing n with
  | nil => exact .inl rfl
  | cons key rest ih =>
    simp only [lpGetKeyIndex] at h ⊢
    split_ifs at h ⊢
    · exact .inr rfl
    · omega
    · exact ih h

/-- A column without a key is looked for up to the first output key. -/
theorem lpGetKeyIndex_eq_neg_two {n : ℕ}
    (hnone : ∀ key ∈ keys, key.uniqueId ≠ ref.tableAlias.uniqueId)
    (houtput : ∃ key ∈ keys, key.keyColumn = none) : lpGetKeyIndex ref keys n = -2 := by
  induction keys generalizing n with
  | nil => simp at houtput
  | cons key rest ih =>
    obtain ⟨hkey, hnone⟩ := forall_mem_cons.mp hnone
    have hfor : ¬key.isFor ref := fun hfor => hkey (SqlKey.uniqueId_of_isFor hfor)
    simp only [lpGetKeyIndex, hfor, Bool.false_eq_true, ↓reduceIte]
    split_ifs with hoption
    · rfl
    · exact ih hnone (by simpa [hoption] using houtput)

theorem lpVerifyValidForKeyFix_spec (hvalid : lpVerifyValidForKeyFix keys a b ≠ false) :
    (FindsKey keys a ∨ FindsKey keys b) ∧ lpGetKeyIndex a keys 0 ≠ -2 ∧
    lpGetKeyIndex b keys 0 ≠ -2 ∧ (a.tableAlias.uniqueId = b.tableAlias.uniqueId →
      FindsKey keys a ∧ FindsKey keys b) := by
  have ha := @lpGetKeyIndex_neg keys a 0
  have hb := @lpGetKeyIndex_neg keys b 0
  unfold lpVerifyValidForKeyFix at hvalid
  simp only at hvalid
  unfold FindsKey
  split_ifs at hvalid with hnone hone
  · exact absurd rfl hvalid
  · exact absurd rfl hvalid
  · simp only [ne_eq, Bool.not_eq_eq_eq_not, Bool.not_false, Bool.not_eq_true,
      Bool.or_eq_false_iff, beq_eq_false_iff_ne] at hvalid
    refine ⟨by omega, hvalid.1, hvalid.2, fun hid => ?_⟩
    rw [and_iff_left hid] at hone
    omega

theorem equalityFix_columns (h : equalityFix order criteria (.columnAlias a) (.columnAlias b) =
    some (some (ref, value))) : lpVerifyValidForKeyFix criteria.keys a b ≠ false ∧
    (ref = a ∨ ref = b) := by
  simp only [equalityFix] at h
  split_ifs at h with hvalid <;> cases h
  · exact ⟨hvalid, .inr rfl⟩
  · exact ⟨hvalid, .inl rfl⟩

/-- Nothing is fixed by an equality inside a table that is not between two of
its keys. -/
theorem KeysKept.fixColumn_same (hkept : KeysKept initial criteria)
    (hid : a.tableAlias.uniqueId = b.tableAlias.uniqueId)
    (hkeys : ¬(FindsKey initial a ∧ FindsKey initial b))
    (hvalid : lpVerifyValidForKeyFix criteria.keys a b ≠ false) (href : ref = a ∨ ref = b) :
    Octo.fixColumn optimize ref value criteria = some criteria := by
  obtain ⟨-, -, -, hboth⟩ := lpVerifyValidForKeyFix_spec hvalid
  obtain ⟨ha, hb⟩ := hboth hid
  have hfrozen : Frozen criteria.keys a.tableAlias.uniqueId := by
    rcases hkept.finds a ha with hinitial | hfrozen
    · rcases hkept.finds b hb with hinitial' | hfrozen
      · exact absurd ⟨hinitial, hinitial'⟩ hkeys
      · exact hid ▸ hfrozen
    · exact hfrozen
  rcases href with rfl | rfl
  · exact fixColumn_of_frozen ha hfrozen
  · exact fixColumn_of_frozen hb (hid ▸ hfrozen)

/-- Nor by one of a column of an enclosing query with a column that has no
key. -/
theorem KeysKept.fixColumn_outside (hkept : KeysKept initial criteria)
    (houtside : ∀ key ∈ initial, key.uniqueId ≠ a.tableAlias.uniqueId)
    (hkeys : FindsKey initial b → ∃ key ∈ initial, key.keyColumn = none)
    (hvalid : lpVerifyValidForKeyFix criteria.keys a b ≠ false) (href : ref = a ∨ ref = b) :
    Octo.fixColumn optimize ref value criteria = some criteria := by
  have hzero := keyUniqueIdArray_eq_zero_iff.mpr houtside
  have hnone : ∀ key ∈ criteria.keys, key.uniqueId ≠ a.tableAlias.uniqueId :=
    fun key hkey hid => (hkept.mem_iff _).mp ⟨key, hkey, hid⟩ hzero
  obtain ⟨hfinds, hindex, -, -⟩ := lpVerifyValidForKeyFix_spec hvalid
  rcases href with rfl | rfl
  · exact hkept.fixColumn_of_outside hzero
  · have hb : FindsKey criteria.keys ref := by
      refine hfinds.resolve_left fun ha => ?_
      obtain ⟨key, hkey, hfor⟩ := lpGetKeyIndex_nonneg ha
      exact hnone key hkey (SqlKey.uniqueId_of_isFor hfor)
    refine fixColumn_of_frozen hb ((hkept.finds ref hb).resolve_left fun hinitial => hindex ?_)
    exact lpGetKeyIndex_eq_neg_two hnone (hkept.output (hkeys hinitial))

end Refused

/-- The equalities among the conjuncts of a WHERE. -/
def equalities : LogicalPlan → List (LogicalPlan × LogicalPlan)
  | .node type left right =>
    if type = .booleanAnd then equalities left ++ equalities right
    else if type = .booleanEquals then [(left, right)]
    else []
  | _ => []

section Reads

variable {fuel : ℕ} {criteria result : Criteria} {initial : List SqlKey}
  {ref other : SqlColumnAlias} {left right whereCond : LogicalPlan}

theorem equalityFix_columnAlias
    (h : equalityFix order criteria left right = some (some (ref, .columnAlias other))) :
    (left = .columnAlias other ∧ right = .columnAlias ref ∨
    left = .columnAlias ref ∧ right = .columnAlias other) ∧ (order ref.tableAlias.uniqueId ≠ 0 →
    order other.tableAlias.uniqueId ≤ order ref.tableAlias.uniqueId) := by
  unfold equalityFix at h
  split at h
  · simp only at h
    split_ifs at h with _ _ _ horder <;>
      simp only [some.injEq, reduceCtorEq, Prod.mk.injEq, KeyValue.columnAlias.injEq] at h
    · obtain ⟨rfl, rfl⟩ := h
      exact ⟨.inl ⟨rfl, rfl⟩, by omega⟩
    · obtain ⟨rfl, rfl⟩ := h
      exact ⟨.inr ⟨rfl, rfl⟩, by omega⟩
  · split_ifs at h <;> cases h
  · split_ifs at h <;> cases h
  · cases h

theorem ReadsBefore.fixEquals (hreads : ReadsBefore (keyUniqueIdArray initial) criteria.keys)
    (hkept : KeysKept initial criteria)
    (hapart : ∀ a b, left = .columnAlias a → right = .columnAlias b →
      a.tableAlias.uniqueId = b.tableAlias.uniqueId → ¬(FindsKey initial a ∧ FindsKey initial b))
    (h : fixEquals (optimizeLogicalPlan fuel) (keyUniqueIdArray initial) left right criteria =
      some result) : ReadsBefore (keyUniqueIdArray initial) result.keys := by
  unfold Octo.fixEquals at h
  split at h
  · cases h
  · exact some.inj h ▸ hreads
  · rename_i ref value hfix
    by_cases hsame : ∃ a b, left = .columnAlias a ∧ right = .columnAlias b ∧
        a.tableAlias.uniqueId = b.tableAlias.uniqueId
    · obtain ⟨a, b, rfl, rfl, hid⟩ := hsame
      obtain ⟨hvalid, href⟩ := equalityFix_columns hfix
      rw [hkept.fixColumn_same hid (hapart a b rfl rfl hid) hvalid href] at h
      exact some.inj h ▸ hreads
    · refine hreads.fixColumn hkept.toKeysOrdered (fun hne other hvalue => ?_) h
      obtain ⟨hsides, hle⟩ := equalityFix_columnAlias (hvalue ▸ hfix)
      refine lt_of_le_of_ne (hle hne) fun heq => hsame ?_
      have hid := keyUniqueIdArray_inj hne heq.symm
      rcases hsides with ⟨hl, hr⟩ | ⟨hl, hr⟩
      · exact ⟨other, ref, hl, hr, hid.symm⟩
      · exact ⟨ref, other, hl, hr, hid⟩

theorem ReadsBefore.run (hreads : ReadsBefore (keyUniqueIdArray initial) criteria.keys)
    (hkept : KeysKept initial criteria)
    (hapart : ∀ a b, (.columnAlias a, .columnAlias b) ∈ equalities whereCond →
      a.tableAlias.uniqueId = b.tableAlias.uniqueId → ¬(FindsKey initial a ∧ FindsKey initial b))
    (h : lpOptimizeWhereMultiEqualAndsHelper (optimizeLogicalPlan fuel) (keyUniqueIdArray initial)
      whereCond criteria = some result) : ReadsBefore (keyUniqueIdArray initial) result.keys := by
  induction whereCond generalizing criteria result with
  | node type left right ihLeft ihRight =>
    simp only [lpOptimizeWhereMultiEqualAndsHelper] at h
    simp only [equalities] at hapart
    split_ifs at h hapart
    · obtain ⟨middle, hleft, hright⟩ := bind_eq_some_iff.mp h
      have hmiddle := ihLeft hreads hkept (fun a b hmem =>
        hapart a b (mem_append_left _ hmem)) hleft
      exact ihRight hmiddle (hkept.run hleft) (fun a b hmem =>
        hapart a b (mem_append_right _ hmem)) hright
    · refine hreads.fixEquals hkept (fun a b hl hr => hapart a b ?_) h
      rw [hl, hr]
      exact mem_cons_self
    · exact some.inj h ▸ hreads
  | _ => exact some.inj h ▸ hreads

end Reads

/-- Each fixed key reads a value, or a column of a table none of whose keys
stands at its place or behind it. -/
def Known (keys : List SqlKey) : Prop :=
  ∀ (i j : ℕ) (key other : SqlKey) (ref : SqlColumnAlias),
    keys[i]? = some key → key.value = some (.columnAlias ref) →
    keys[j]? = some other → other.uniqueId = ref.tableAlias.uniqueId → j < i

theorem ReadsBefore.known {criteria : Criteria} (hreads : ReadsBefore order criteria.keys)
    (hordered : KeysOrdered order criteria) : Known criteria.keys := by
  intro i j key other ref hkey hvalue hother hid
  obtain ⟨hi, rfl⟩ := List.getElem?_eq_some_iff.mp hkey
  obtain ⟨hj, rfl⟩ := List.getElem?_eq_some_iff.mp hother
  have hlt := hreads _ (getElem_mem hi) ref hvalue
  rw [← hid] at hlt
  by_contra hle
  rcases Nat.eq_or_lt_of_le (not_lt.mp hle) with rfl | hij
  · exact lt_irrefl _ hlt
  · have hsorted := pairwise_iff_getElem.mp hordered.sorted i j hi hj hij
    omega

open KeyExample in
theorem criteria_fresh : (criteria [u, t]).Fresh where
  grouped := by decide
  unfixed := by decide
  joined id h := by
    have hid : (2 == id || (1 == id || false)) = true := h
    simp only [Bool.or_false, Bool.or_eq_true, beq_iff_eq] at hid
    rcases hid with rfl | rfl <;> decide
  stored key hkey _ := by
    revert key
    decide

/-- A WHERE, and the same with the operands of some equalities swapped. -/
inductive Swapped (may : LogicalPlan → LogicalPlan → Prop) : LogicalPlan → LogicalPlan → Prop
  | refl (whereCond : LogicalPlan) : Swapped may whereCond whereCond
  | swap {left right : LogicalPlan} (h : may left right) :
    Swapped may (.node .booleanEquals left right) (.node .booleanEquals right left)
  | and {left left' right right' : LogicalPlan} (hleft : Swapped may left left')
    (hright : Swapped may right right') :
    Swapped may (.node .booleanAnd left right) (.node .booleanAnd left' right')

/-- Two columns can be swapped if they are one column.  Otherwise they may not
be two keys of one table, nor a key and a column of an enclosing query, which
are let through if there is no output key.  All else can always be swapped. -/
def SwapSafe (keys : List SqlKey) : LogicalPlan → LogicalPlan → Prop
  | .columnAlias a, .columnAlias b =>
    a = b ∨ (a.tableAlias.uniqueId = b.tableAlias.uniqueId →
        ¬(FindsKey keys a ∧ FindsKey keys b)) ∧
      ((∀ key ∈ keys, key.uniqueId ≠ a.tableAlias.uniqueId) → FindsKey keys b →
        ∃ key ∈ keys, key.keyColumn = none) ∧
      ((∀ key ∈ keys, key.uniqueId ≠ b.tableAlias.uniqueId) → FindsKey keys a →
        ∃ key ∈ keys, key.keyColumn = none)
  | _, _ => True

section Swap

variable {optimize : Optimizer} {keys : List SqlKey} {a b : SqlColumnAlias} {criteria : Criteria}

theorem lpVerifyValidForKeyFix_comm (a b : SqlColumnAlias) :
    lpVerifyValidForKeyFix keys a b = lpVerifyValidForKeyFix keys b a := by
  simp [lpVerifyValidForKeyFix, and_comm, or_comm, eq_comm, Bool.or_comm]

theorem fixEquals_comm_of_idle (hidle : lpVerifyValidForKeyFix criteria.keys a b ≠ false →
    ∀ ref value, ref = a ∨ ref = b → fixColumn optimize ref value criteria = some criteria) :
    fixEquals optimize order (.columnAlias a) (.columnAlias b) criteria =
    fixEquals optimize order (.columnAlias b) (.columnAlias a) criteria := by
  simp only [fixEquals, equalityFix, lpVerifyValidForKeyFix_comm b a]
  split_ifs with hvalid <;> first | rfl | omega | simp only [hidle hvalid, true_or, or_true]

theorem KeysKept.fixEquals_comm {left right : LogicalPlan} (hsafe : SwapSafe keys left right)
    (hkept : KeysKept keys criteria) :
    Octo.fixEquals optimize (keyUniqueIdArray keys) left right criteria =
    Octo.fixEquals optimize (keyUniqueIdArray keys) right left criteria := by
  unfold SwapSafe at hsafe
  split at hsafe
  · rename_i a b
    obtain rfl | ⟨hsame, hleft, hright⟩ := hsafe
    · rfl
    by_cases hid : a.tableAlias.uniqueId = b.tableAlias.uniqueId
    · exact fixEquals_comm_of_idle fun hvalid _ _ href =>
        hkept.fixColumn_same hid (hsame hid) hvalid href
    by_cases ha : ∀ key ∈ keys, key.uniqueId ≠ a.tableAlias.uniqueId
    · exact fixEquals_comm_of_idle fun hvalid _ _ href =>
        hkept.fixColumn_outside ha (hleft ha) hvalid href
    by_cases hb : ∀ key ∈ keys, key.uniqueId ≠ b.tableAlias.uniqueId
    · refine fixEquals_comm_of_idle fun hvalid _ _ href => ?_
      rw [lpVerifyValidForKeyFix_comm] at hvalid
      exact hkept.fixColumn_outside hb (hright hb) hvalid href.symm
    -- two tables of the plan: the one behind the other is fixed in both orders
    · rw [← keyUniqueIdArray_eq_zero_iff] at ha hb
      have hne : keyUniqueIdArray keys a.tableAlias.uniqueId ≠
          keyUniqueIdArray keys b.tableAlias.uniqueId :=
        fun heq => hid (keyUniqueIdArray_inj ha heq)
      simp only [Octo.fixEquals, equalityFix, lpVerifyValidForKeyFix_comm a b]
      split_ifs <;> first | rfl | omega
  · rename_i hnot
    cases left <;> cases right <;> first | rfl | exact absurd rfl (hnot _ _ rfl)

end Swap

end Octo
