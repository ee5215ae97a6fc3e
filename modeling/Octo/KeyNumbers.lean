/-
The key columns of a table definition.  Each PRIMARY KEY and each KEY NUM puts
its column into the array of the keys; the numbers are not checked to be in the
array, to be different or to have no gaps.
-/
import Mathlib.Algebra.Order.BigOperators.Group.List
import Mathlib.Data.List.FinRange
import Octo.CreateTable

namespace Octo

open List

/-- The places of the array that a column is put into. -/
def ColumnDefinition.slots (column : ColumnDefinition) : List ℤ :=
  (if (getKeyword .primaryKey column).isSome then [0] else []) ++
    (((getKeyword .optionalKeyNum column).bind ColumnKeyword.value).map keyNumber).toList

def keySlots (columns : List ColumnDefinition) : List (ℤ × ColumnDefinition) :=
  columns.flatMap fun column => column.slots.map (·, column)

theorem mem_keySlots {columns : List ColumnDefinition} {n : ℤ} {column : ColumnDefinition} :
    (n, column) ∈ keySlots columns ↔ column ∈ columns ∧ n ∈ column.slots := by
  simp only [keySlots, mem_flatMap, mem_map, Prod.mk.injEq]
  constructor
  · rintro ⟨_, hcolumn, _, hn, rfl, rfl⟩
    exact ⟨hcolumn, hn⟩
  · rintro ⟨hcolumn, hn⟩
    exact ⟨column, hcolumn, n, hn, rfl, rfl⟩

/-- Numbers that fill the array from its start: they are in it, no two are the
same, none is left out, and no column has two. -/
structure NumbersFit (columns : List ColumnDefinition) : Prop where
  inside : ∀ slot ∈ keySlots columns, 0 ≤ slot.1 ∧ slot.1 < maxKeyCount
  nodup : ((keySlots columns).map Prod.fst).Nodup
  full : ∀ slot ∈ keySlots columns, ∀ n, 0 ≤ n → n < slot.1 → n ∈ (keySlots columns).map Prod.fst
  single : ∀ column ∈ columns, column.slots.length ≤ 1

/-- The names of columns, with commas between them. -/
def listKeys : List ColumnDefinition → Option (List Char)
  | [] => some []
  | [column] => generateKeyName none (some column)
  | column :: rest => do
    let name ← generateKeyName none (some column)
    let others ← listKeys rest
    some (name ++ ',' :: others)

def keyNameSize (column : ColumnDefinition) : ℕ :=
  (generateKeyName none (some column)).elim 0 byteSize

/-- The default GLOBAL, with its NUL, is not longer than the buffer. -/
def GlobalFits (name : List Char) (columns : List ColumnDefinition) : Prop :=
  byteSize name + 2 + ((keySlots columns).map fun slot => keyNameSize slot.2 + 1).sum <
    maxStrConst

/-- The keys up to the largest are there, all different, and a GLOBAL that the
statement does not give lists them. -/
def TableDefinition.ListsKeys (table : TableDefinition) (keywords : List ColumnKeyword)
    (keys : KeyColumns) : Prop :=
  keys.maxKey < maxKeyCount ∧ ∃ columns : List ColumnDefinition,
    columns.Nodup ∧ (columns.length : ℤ) = keys.maxKey + 1 ∧
    (∀ i column, columns[i]? = some column → keys.columns i = some column) ∧
    (keywordValues .optionalSource keywords = [] →
      ∃ names, listKeys columns = some names ∧
        table.source = '^' :: table.name ++ '(' :: names ++ [')'])

section Fill

variable {keys : KeyColumns} {column : ColumnDefinition} {rest columns : List ColumnDefinition}

theorem getKeyColumns_nil_slots (hslots : column.slots = []) :
    getKeyColumns keys (column :: rest) = getKeyColumns keys rest := by
  obtain ⟨hprimary, hnumber⟩ := append_eq_nil_iff.mp hslots
  have hprimary : (getKeyword .primaryKey column).isSome = false := by
    by_contra h
    simp [h] at hprimary
  have hnumber : (getKeyword .optionalKeyNum column).bind ColumnKeyword.value =
      none := by simpa using hnumber
  simp [getKeyColumns, hprimary, hnumber]

theorem getKeyColumns_slot {n : ℤ} (hslots : column.slots = [n]) (hinside : 0 ≤ n ∧ n < maxKeyCount)
    (hfree : keys.columns n.toNat = none) : ∃ m, (m = keys.maxKey ∨ m = n) ∧
    getKeyColumns keys (column :: rest) = getKeyColumns
    ⟨Function.update keys.columns n.toNat (some column), m⟩ rest := by
  unfold ColumnDefinition.slots at hslots
  by_cases hprimary : (getKeyword .primaryKey column).isSome
  · obtain ⟨rfl, hnumber⟩ : 0 = n ∧ (getKeyword .optionalKeyNum column).bind
        ColumnKeyword.value = none := by simpa [hprimary] using hslots
    refine ⟨0, .inr rfl, ?_⟩
    have hzero : keys.columns 0 = none := hfree
    simp [getKeyColumns, hprimary, hnumber, hzero]
  · rw [if_neg hprimary, nil_append,
      Option.toList_eq_singleton_iff, Option.map_eq_some_iff] at hslots
    obtain ⟨text, htext, rfl⟩ := hslots
    refine ⟨max (keyNumber text) keys.maxKey, (max_choice _ _).symm, ?_⟩
    have houtside : ¬(keyNumber text < 0 ∨ maxKeyCount ≤ keyNumber text) := by
      omega
    simp [getKeyColumns, hprimary, htext, houtside, hfree]

/-- The array holds what it held and the columns at their places. -/
theorem getKeyColumns_filled
    (hinside : ∀ slot ∈ keySlots columns, 0 ≤ slot.1 ∧ slot.1 < maxKeyCount)
    (hnodup : ((keySlots columns).map Prod.fst).Nodup)
    (hsingle : ∀ column ∈ columns, column.slots.length ≤ 1)
    (hfree : ∀ slot ∈ keySlots columns, keys.columns slot.1.toNat = none) :
    ∃ filled, getKeyColumns keys columns = some filled ∧
    (∀ i column, filled.columns i = some column ↔
    keys.columns i = some column ∨ (↑i, column) ∈ keySlots columns) ∧ (filled.maxKey = keys.maxKey ∨
    filled.maxKey ∈ (keySlots columns).map Prod.fst) := by
  induction columns generalizing keys with
  | nil => exact ⟨keys, rfl, by simp [keySlots], .inl rfl⟩
  | cons column rest ih =>
    obtain ⟨hone, hsingle⟩ := forall_mem_cons.mp hsingle
    have hcons : keySlots (column :: rest) =
        column.slots.map (·, column) ++ keySlots rest := flatMap_cons
    rw [hcons] at hinside hnodup hfree ⊢
    obtain hslots | ⟨n, hslots⟩ : column.slots = [] ∨ ∃ n, column.slots = [n] := by
      match hmatch : column.slots with
      | [] => exact .inl rfl
      | [n] => exact .inr ⟨n, rfl⟩
      | _ :: _ :: _ => simp [hmatch] at hone
    · rw [hslots, map_nil, nil_append] at hinside hnodup hfree ⊢
      rw [getKeyColumns_nil_slots hslots]
      exact ih hinside hnodup hsingle hfree
    · simp only [hslots, map_cons, map_nil, cons_append,
        nil_append, forall_mem_cons, nodup_cons] at hinside hnodup hfree ⊢
      obtain ⟨m, hm, hstep⟩ :=
        @getKeyColumns_slot keys column rest n hslots hinside.1 hfree.1
      have hother : ∀ slot ∈ keySlots rest, Function.update keys.columns
          n.toNat (some column) slot.1.toNat = none := by
        intro slot hslot
        have hne : slot.1 ≠ n := by
          rintro rfl
          exact hnodup.1 (mem_map_of_mem hslot)
        have hpos := (hinside.2 slot hslot).1
        exact (Function.update_of_ne (by omega) _ _).trans (hfree.2 slot hslot)
      obtain ⟨filled, hrun, hcolumns, hmax⟩ := @ih
        ⟨Function.update keys.columns n.toNat (some column), m⟩ hinside.2 hnodup.2 hsingle hother
      refine ⟨filled, hstep.trans hrun, fun i other => ?_, ?_⟩
      · rw [hcolumns, mem_cons, ← or_assoc, Prod.mk.injEq]
        refine or_congr_left ?_
        by_cases hi : i = n.toNat
        · simp [hi, hfree.1, Int.toNat_of_nonneg hinside.1.1, eq_comm]
        · have hne : (i : ℤ) ≠ n := by omega
          simp [Function.update_of_ne hi, hne]
      · rw [mem_cons]
        rcases hmax with hmax | hmax
        · rcases hm with rfl | rfl
          · exact .inl hmax
          · exact .inr (.inl hmax)
        · exact .inr (.inr hmax)

theorem keyNames_eq {i count : ℕ} {buffer : Option (List Char)}
    (hlength : columns.length = count + 1) (hcolumns : ∀ j column, columns[j]? = some column →
    keys.columns (i + j) = some column) : keyNames keys buffer i count = listKeys columns := by
  induction columns generalizing i count buffer with
  | nil => cases hlength
  | cons column rest ih =>
    have hfirst : keys.columns i = some column := hcolumns 0 column rfl
    have hname : generateKeyName buffer (some column) = generateKeyName none (some column) := rfl
    cases count with
    | zero =>
      obtain rfl : rest = [] := by simpa using hlength
      rw [keyNames, hfirst, hname, listKeys]
    | succ count =>
      have hrest : rest.length = count + 1 := by simpa using hlength
      have hnext : ∀ j other, rest[j]? = some other → keys.columns (i + 1 + j) = some other := by
        intro j other hother
        rw [Nat.add_right_comm]
        exact hcolumns (j + 1) other hother
      obtain ⟨second, others, rfl⟩ :=
        exists_cons_of_length_eq_add_one hrest
      simp [keyNames, hfirst, hname, ih hrest hnext, listKeys]

end Fill

theorem byteSize_listKeys {columns : List ColumnDefinition} {names : List Char}
    (hne : columns ≠ []) (hnames : listKeys columns = some names) :
    byteSize names + 1 = (columns.map fun column => keyNameSize column + 1).sum := by
  induction columns generalizing names with
  | nil => exact absurd rfl hne
  | cons column rest ih =>
    cases rest with
    | nil =>
      rw [listKeys] at hnames
      simp [keyNameSize, hnames]
    | cons second others =>
      simp only [listKeys, Option.bind_eq_bind, Option.bind_eq_some_iff] at hnames
      obtain ⟨name, hname, rest, hrest, ⟨⟩⟩ := hnames
      rw [map_cons, sum_cons, ← ih (cons_ne_nil _ _) hrest]
      rw [append_cons, byteSize_append, byteSize_append, show byteSize [','] = 1 by decide]
      simp only [keyNameSize, hname, Option.elim_some]
      omega

section Numbers

variable {columns : List ColumnDefinition} (hfit : NumbersFit columns)

include hfit

theorem NumbersFit.number_eq {n m : ℤ} {column : ColumnDefinition}
    (hn : (n, column) ∈ keySlots columns) (hm : (m, column) ∈ keySlots columns) : n = m := by
  obtain ⟨hin, hn⟩ := mem_keySlots.mp hn
  obtain ⟨number, hnumber⟩ :=
    length_eq_one_iff.mp (le_antisymm (hfit.single _ hin) (length_pos_of_mem hn))
  have hm := (mem_keySlots.mp hm).2
  simp only [hnumber, mem_singleton] at hn hm
  exact hn.trans hm.symm

/-- The array holds different key columns up to the largest number that is
counted. -/
theorem NumbersFit.exists_listed {keys : KeyColumns}
    (hcolumns : ∀ i column, keys.columns i = some column ↔ (↑i, column) ∈ keySlots columns)
    (hlast : keys.maxKey ∈ (keySlots columns).map Prod.fst) :
    ∃ listed : List ColumnDefinition, listed.Nodup ∧
    (∀ column ∈ listed, column ∈ (keySlots columns).map Prod.snd) ∧
    (listed.length : ℤ) = keys.maxKey + 1 ∧
    ∀ i column, listed[i]? = some column → keys.columns i = some column := by
  obtain ⟨last, hslot, hlast⟩ := mem_map.mp hlast
  have hpos : 0 ≤ keys.maxKey := hlast ▸ (hfit.inside last hslot).1
  -- every place up to the largest number is filled
  have hfull : ∀ i : Fin (keys.maxKey.toNat + 1), ∃ column,
      (((i : ℕ) : ℤ), column) ∈ keySlots columns := by
    intro i
    have hi : ((i : ℕ) : ℤ) ∈ (keySlots columns).map Prod.fst := by
      rcases Nat.eq_or_lt_of_le (Nat.le_of_lt_succ i.isLt) with hi | hi
      · rw [hi, Int.toNat_of_nonneg hpos, ← hlast]
        exact mem_map_of_mem hslot
      · exact hfit.full last hslot i (Int.natCast_nonneg _) (by omega)
    obtain ⟨⟨n, column⟩, hin, rfl⟩ := mem_map.mp hi
    exact ⟨column, hin⟩
  choose column hcolumn using hfull
  refine ⟨List.ofFn column, nodup_ofFn.mpr fun i j hij => ?_, ?_, ?_, ?_⟩
  · have hj := hcolumn j
    rw [← hij] at hj
    have hnumber := hfit.number_eq (hcolumn i) hj
    exact Fin.ext (by omega)
  · rw [forall_mem_ofFn_iff]
    exact fun i => mem_map.mpr ⟨_, hcolumn i, rfl⟩
  · rw [length_ofFn]
    omega
  · intro i other hother
    obtain ⟨hlt, rfl⟩ := List.getElem?_eq_some_iff.mp hother
    rw [List.getElem_ofFn]
    exact (hcolumns _ _).mpr (hcolumn ⟨i, by simpa using hlt⟩)

end Numbers

/-- Different key columns take no more room than all of them. -/
theorem GlobalFits.byteSize_lt {columns listed : List ColumnDefinition} {name names : List Char}
    (hglobal : GlobalFits name columns) (hnodup : listed.Nodup) (hne : listed ≠ [])
    (hsubset : ∀ column ∈ listed, column ∈ (keySlots columns).map Prod.snd)
    (hnames : listKeys listed = some names) :
    byteSize ('^' :: name ++ '(' :: names ++ [')']) < maxStrConst := by
  obtain ⟨part, hperm, hpart⟩ := subperm_of_subset hnodup hsubset
  have hsum := (hpart.map fun column => keyNameSize column + 1).sum_le_sum fun _ _ => Nat.zero_le _
  rw [(hperm.map _).sum_eq, ← byteSize_listKeys hne hnames, map_map] at hsum
  have hsize : byteSize ('^' :: name ++ '(' :: names ++ [')']) =
      byteSize name + byteSize names + 3 := by
    rw [show '^' :: name ++ '(' :: names ++ [')'] =
      ['^'] ++ name ++ ['('] ++ names ++ [')'] by simp]
    simp only [byteSize_append]
    rw [show byteSize ['^'] = 1 by decide, show byteSize ['('] = 1 by decide,
      show byteSize [')'] = 1 by decide]
    omega
  unfold GlobalFits at hglobal
  simp only [Function.comp_def] at hsum
  omega

/-- A table whose key numbers fit is read without an access outside the array,
and if it is accepted, its keys are listed. -/
theorem accepted_keys_listed {columns : List ColumnDefinition} (hfit : NumbersFit columns) :
    ∃ keys, getKeyColumns ⟨fun _ => none, -1⟩ columns = some keys ∧
      ∀ name keywords table, (keywordValues .optionalSource keywords = [] →
        GlobalFits name columns) →
      createTableDefaults name columns keywords = some table →
      table.ListsKeys keywords keys := by
  obtain ⟨keys, hrun, hcolumns, hmax⟩ := @getKeyColumns_filled
    ⟨fun _ => none, -1⟩ _ hfit.inside hfit.nodup hfit.single fun _ _ => rfl
  refine ⟨keys, hrun, fun name keywords table hglobal haccept => ?_⟩
  obtain ⟨_, hkeys, haccept⟩ := Option.bind_eq_some_iff.mp haccept
  obtain rfl : keys = _ := Option.some_inj.mp (hrun.symm.trans hkeys)
  split_ifs at haccept with hneg
  obtain ⟨source, hsource, haccept⟩ := Option.bind_eq_some_iff.mp haccept
  obtain ⟨delim, -, ⟨⟩⟩ := Option.bind_eq_some_iff.mp haccept
  have hmem : keys.maxKey ∈ (keySlots columns).map Prod.fst := by
    refine hmax.resolve_left fun hnone => hneg ?_
    rw [hnone]
    decide
  obtain ⟨listed, hnodup, hsubset, hlength, hget⟩ :=
    hfit.exists_listed (fun i column => by simpa using hcolumns i column) hmem
  have hne : listed ≠ [] := by
    rintro rfl
    simp at hlength
    omega
  obtain ⟨last, hlast, heq⟩ := mem_map.mp hmem
  refine ⟨heq ▸ (hfit.inside last hlast).2, listed, hnodup, hlength, hget, fun hnone => ?_⟩
  rw [hnone, onlyValue, defaultSource, Option.bind_eq_bind, Option.bind_eq_some_iff] at hsource
  obtain ⟨names, hnames, hsource⟩ := hsource
  rw [@keyNames_eq keys listed 0 _ none (by omega) (by simpa using hget)] at hnames
  rw [if_pos (GlobalFits.byteSize_lt (hglobal hnone) hnodup hne hsubset hnames)] at hsource
  exact ⟨names, hnames, (Option.some_inj.mp hsource).symm⟩

namespace KeyNumberExample

def keyColumn (name : List Char) (keyword : ColumnKeyword) : ColumnDefinition :=
  ⟨name, .integerType, [keyword]⟩

def keyNum (text : String) : ColumnKeyword :=
  ⟨.optionalKeyNum, some text.toList⟩

end KeyNumberExample

open KeyNumberExample in
theorem two_keys_listed : ∃ keys table,
    createTableDefaults ['T'] [keyColumn ['A'] ⟨.primaryKey, none⟩, keyColumn ['B'] (keyNum "1")]
      [] = some table ∧
    table.ListsKeys [] keys := by
  have hslots : keySlots [keyColumn ['A'] ⟨.primaryKey, none⟩, keyColumn ['B'] (keyNum "1")] =
      [(0, keyColumn ['A'] ⟨.primaryKey, none⟩), (1, keyColumn ['B'] (keyNum "1"))] := by decide
  have hfit : NumbersFit
      [keyColumn ['A'] ⟨.primaryKey, none⟩, keyColumn ['B'] (keyNum "1")] := by
    refine ⟨?_, ?_, ?_, by decide⟩ <;> rw [hslots]
    · decide
    · decide
    · intro slot hslot n hn hlt
      rw [show n = 0 by
        rcases mem_pair.mp hslot with rfl | rfl <;> simp at hlt <;> omega]
      decide
  obtain ⟨keys, -, hlisted⟩ := accepted_keys_listed hfit
  obtain ⟨table, htable⟩ := Option.isSome_iff_exists.mp
    (show (createTableDefaults ['T'] [keyColumn ['A'] ⟨.primaryKey, none⟩,
      keyColumn ['B'] (keyNum "1")] []).isSome by decide)
  refine ⟨keys, table, htable, hlisted _ _ _ (fun _ => ?_) htable⟩
  unfold GlobalFits
  decide

open KeyNumberExample in
/-- A number that is given twice or left out puts the key before it into the
GLOBAL once more; a negative one is not in the array. -/
theorem key_numbers_are_not_checked :
    (createTableDefaults ['T'] [keyColumn ['A'] ⟨.primaryKey, none⟩,
    keyColumn ['B'] (keyNum "0")] []).map (String.ofList ·.source) =
    some "^T(keys(\"A\"),keys(\"A\"))" ∧ (createTableDefaults ['T'] [keyColumn ['A'] (keyNum "0"),
    keyColumn ['B'] (keyNum "2")] []).map (String.ofList ·.source) =
    some "^T(keys(\"A\"),keys(\"A\"),keys(\"B\"))" ∧ (getKeyColumns ⟨fun _ => none, -1⟩
    [keyColumn ['A'] (keyNum "-1")]).isNone := by
  decide

end Octo
