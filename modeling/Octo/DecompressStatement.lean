/-
`decompress_statement` turns the relative pointers of a written table into
addresses, wherever the bytes are, and closes its lists to circles again.
`assign_table_to_columns` then gives each column its table.
-/
import Octo.CompressStatement

namespace Octo

open List Set

namespace TableStatement

open ByteMemory RelativeList

def callDecompressHelper (helper : ℕ → Memory → Option Memory) (field : ℕ)
    (mem : Memory) : Option Memory :=
  if load mem 8 field = 0 then some mem
  else
    let mem := store mem 8 field (relativeTarget mem field)
    helper (load mem 8 field) mem

def decompressTable (helper : ℕ → Memory → Option Memory) (table : ℕ)
    (mem : Memory) : Option Memory := do
  let mem ← callDecompressHelper helper table mem
  let mem ← callDecompressHelper helper (table + 8) mem
  let mem ← callDecompressHelper helper (table + 16) mem
  callDecompressHelper helper (table + 24) mem

def decompressValue (helper : ℕ → Memory → Option Memory) (value : ℕ)
    (mem : Memory) : Option Memory :=
  if load mem 4 value = ValueType.calculatedValue.code then
    callDecompressHelper helper (value + 16) mem
  else some (store mem 8 (value + 16) (relativeTarget mem (value + 16)))

def decompressColumn (helper : ℕ → Memory → Option Memory) (cur : ℕ)
    (mem : Memory) : Option Memory := do
  let mem ← callDecompressHelper helper cur mem
  callDecompressHelper helper (cur + 24) mem

def decompressKeyword (helper : ℕ → Memory → Option Memory) (cur : ℕ)
    (mem : Memory) : Option Memory :=
  callDecompressHelper helper (cur + 8) mem

/-- What a statement of some type points to. -/
def decompressBody (helper : ℕ → Memory → Option Memory) (fuel : ℕ)
    (type : Option StatementType) (v : ℕ) (mem : Memory) : Option Memory :=
  match type with
  | some .tableStatement => decompressTable helper v mem
  | some .valueStatement => decompressValue helper v mem
  | some .columnStatement =>
    unpackList 32 v (decompressColumn helper) fuel v mem
  | some .keywordStatement =>
    unpackList 16 v (decompressKeyword helper) fuel v mem
  | some .columnListStatement => some mem
  | some .columnListAliasStatement => some mem
  | _ => none

/-- `decompress_statement_helper`; no statement is at or behind `limit`. -/
def decompressStatementHelper (limit : ℕ) : ℕ → ℕ → Memory → Option Memory
  | 0, _, _ => none
  | fuel + 1, stmt, mem =>
    if limit ≤ stmt then none
    else if stmt = 0 then some mem
    else if load mem 8 (stmt + 24) = 0 then some mem
    else
      let mem := store mem 8 (stmt + 24) (relativeTarget mem (stmt + 24))
      decompressBody (decompressStatementHelper limit fuel) fuel
        (StatementType.ofCode (load mem 4 stmt)) (load mem 8 (stmt + 24)) mem

/-- `decompress_statement`.  `out_length` is an `int`, so `outLength` stands for a
length below 2 ^ 31. -/
def decompressStatement (fuel buffer outLength : ℕ) (mem : Memory) : Option Memory :=
  decompressStatementHelper (buffer + outLength) fuel buffer mem

/-- A call restores something of `n` bytes. -/
def Unpacks (n bound : ℕ) (packed : Memory → ℕ → Prop)
    (unpacked : Memory → ℕ → Prop) (call : ℕ → Memory → Option Memory) :
    Prop :=
  ∀ a mem, a ≠ 0 → packed mem a → a + n ≤ bound → ∃ mem', call a mem = some mem' ∧
    (∀ b, b < a ∨ a + n ≤ b → mem' b = mem b) ∧ unpacked mem' a

section Fields

variable {n bound : ℕ} {packed unpacked : Memory → ℕ → Prop}
  {helper : ℕ → Memory → Option Memory} {mem : Memory}

theorem callDecompressHelper_spec {field target : ℕ}
    (hunpacks : Unpacks n bound packed unpacked helper)
    (hcongr : ∀ {mem mem' : Memory} {a : ℕ}, packed mem a →
    Set.EqOn mem mem' (Set.Ico a (a + n)) → packed mem' a) (hbound : bound ≤ 2 ^ 64) (hn : 0 < n)
    (hptr : Relative mem field target) (hpacked : packed mem target) (hbelow : field + 8 ≤ target)
    (hhigh : target + n ≤ bound) : ∃ mem', callDecompressHelper helper field mem = some mem' ∧
    (∀ b, b < field ∨ field + 8 ≤ b ∧ b < target ∨ target + n ≤ b → mem' b = mem b) ∧
    load mem' 8 field = target ∧ unpacked mem' target := by
  have htarget := hptr.target_eq (by omega : target < 2 ^ 64)
  have hload : load (store mem 8 field target) 8 field = target := by
    rw [load_store]
    exact Nat.mod_eq_of_lt (by omega)
  have hpacked' : packed (store mem 8 field target) target := by
    apply hcongr hpacked
    rintro b ⟨hlow, -⟩
    exact (store_apply (by omega)).symm
  obtain ⟨mem', hmem', hsame, hunpacked⟩ := hunpacks target
    (store mem 8 field target) (by omega) hpacked' hhigh
  refine ⟨mem', ?_, ?_, ?_, hunpacked⟩
  · rw [callDecompressHelper, if_neg hptr.ne_zero]
    simp [htarget, hload, hmem']
  · intro b hb
    rw [hsame b (by omega), store_apply (by omega)]
  · rw [← hload]
    apply load_congr
    rintro b ⟨-, hup⟩
    exact hsame b (by omega)

end Fields

section Statements

variable {limit bound fuel n : ℕ}

/-- A restored statement; what it points to follows. -/
def UnpackedStatement (mem : Memory) (a : ℕ) (type : StatementType) : Prop :=
  load mem 4 a = type.code ∧ load mem 8 (a + 24) = a + 32

def BodyUnpacks (limit bound fuel n : ℕ) (type : StatementType)
    (packed unpacked : Memory → ℕ → Prop) : Prop :=
  ∀ v mem, packed mem v → v + n ≤ bound →
    ∃ mem', decompressBody (decompressStatementHelper limit fuel) fuel
    (some type) v mem = some mem' ∧ (∀ b, b < v ∨ v + n ≤ b → mem' b = mem b) ∧ unpacked mem' v

variable {type : StatementType}

theorem unpacks_statement {packed unpacked : Memory → ℕ → Prop}
    (hcongr : ∀ {mem mem' : Memory} {a : ℕ}, packed mem a →
    Set.EqOn mem mem' (Set.Ico a (a + n)) → packed mem' a)
    (hbody : BodyUnpacks limit bound fuel n type packed unpacked) (hbound : bound ≤ 2 ^ 64)
    (hlimit : bound ≤ limit) (hn : 0 < n) : Unpacks (32 + n) bound
    (fun mem a => PackedStatement mem a type ∧ packed mem (a + 32))
    (fun mem a => UnpackedStatement mem a type ∧ unpacked mem (a + 32))
    (decompressStatementHelper limit (fuel + 1)) := by
  rintro a mem ha ⟨⟨htype, hptr⟩, hpacked⟩ hhigh
  have htarget := hptr.target_eq (by omega : a + 32 < 2 ^ 64)
  have hload : load (store mem 8 (a + 24) (a + 32)) 8 (a + 24) = a + 32 := by
    rw [load_store]
    exact Nat.mod_eq_of_lt (by omega)
  have hcode : load (store mem 8 (a + 24) (a + 32)) 4 a = type.code := by
    rw [load_store_of_disjoint (by omega), htype]
  have hpacked' : packed (store mem 8 (a + 24) (a + 32)) (a + 32) := by
    apply hcongr hpacked
    rintro b ⟨hlow, -⟩
    exact (store_apply (by omega)).symm
  obtain ⟨mem', hmem', hsame, hunpacked⟩ := hbody (a + 32)
    (store mem 8 (a + 24) (a + 32)) hpacked' (by omega)
  refine ⟨mem', ?_, ?_, ⟨?_, ?_⟩, hunpacked⟩
  · rw [decompressStatementHelper, if_neg (by omega), if_neg ha, if_neg hptr.ne_zero]
    simp [htarget, hcode, hload, StatementType.ofCode_code, hmem']
  · intro b hb
    rw [hsame b (by omega), store_apply (by omega)]
  · rw [← hcode]
    apply load_congr
    rintro b ⟨-, hup⟩
    exact hsame b (by omega)
  · rw [← hload]
    apply load_congr
    rintro b ⟨-, hup⟩
    exact hsame b (by omega)

/-- A restored statement is one. -/
theorem UnpackedStatement.statementAt {mem : Memory} {a : ℕ} {region : Set ℕ} {payload : ℕ → Prop}
    (hstmt : UnpackedStatement mem a type) (ha : a ≠ 0) (hregion : Set.Ico a (a + 32) ⊆ region)
    (hpayload : payload (a + 32)) : StatementAt mem region a type payload := by
  obtain ⟨htype, hptr⟩ := hstmt
  refine ⟨ha, ?_, ?_, htype, ?_, ?_⟩
  · exact (Set.Ico_subset_Ico (by omega) (by omega)).trans hregion
  · exact (Set.Ico_subset_Ico (by omega) (by omega)).trans hregion
  · omega
  · rw [hptr]
    exact hpayload

end Statements

section Values

variable {limit bound fuel : ℕ}

theorem PackedText.congr {mem mem' : Memory} {a : ℕ} {v : Value} (hpacked : PackedText mem a v)
    (hsame : Set.EqOn mem mem' (Set.Ico a (a + (24 + v.text.length + 1)))) :
    PackedText mem' a v := by
  obtain ⟨htype, hptr, htext⟩ := hpacked
  refine ⟨?_, hptr.congr ?_, htext.congr ?_⟩
  · rw [← htype]
    exact (load_congr (hsame.mono (Set.Ico_subset_Ico (by omega) (by omega)))).symm
  all_goals exact hsame.mono (Set.Ico_subset_Ico (by omega) (by omega))

theorem bodyUnpacks_value (v : Value) (hbound : bound ≤ 2 ^ 64) :
    BodyUnpacks limit bound fuel (24 + v.text.length + 1) .valueStatement
    (fun mem a => PackedText mem a v) (fun mem a => ValuePayload mem
    (Set.Ico a (a + (24 + v.text.length + 1))) v a) := by
  rintro a mem ⟨htype, hptr, htext⟩ hhigh
  have htarget := hptr.target_eq (by omega : a + 24 < 2 ^ 64)
  have hnot : load mem 4 a ≠ ValueType.calculatedValue.code := by
    rw [htype]
    exact ValueType.code_ne v.notCalculated
  have hload : load (store mem 8 (a + 16) (a + 24)) 8 (a + 16) = a + 24 := by
    rw [load_store]
    exact Nat.mod_eq_of_lt (by omega)
  refine ⟨store mem 8 (a + 16) (a + 24), ?_, ?_, ?_, ?_, ?_, ?_, ?_⟩
  · simp [decompressBody, decompressValue, if_neg hnot, htarget]
  · intro b hb
    exact store_apply (by omega)
  · exact Set.Ico_subset_Ico (by omega) (by omega)
  · exact Set.Ico_subset_Ico (by omega) (by omega)
  · rw [load_store_of_disjoint (by omega), htype]
  · rw [hload]
    exact Set.Ico_subset_Ico (by omega) (by omega)
  · rw [hload]
    apply htext.congr
    rintro b ⟨hlow, -⟩
    exact (store_apply (by omega)).symm

theorem unpacks_value (v : Value) (hbound : bound ≤ 2 ^ 64) (hlimit : bound ≤ limit)
    (hfuel : 0 < fuel) : Unpacks v.size bound (fun mem a => PackedValue mem a v)
    (fun mem a => ValueAt mem (Set.Ico a (a + v.size)) a v)
    (decompressStatementHelper limit fuel) := by
  obtain ⟨fuel, rfl⟩ : ∃ j, fuel = j + 1 :=
    Nat.exists_eq_add_one_of_ne_zero hfuel.ne'
  have hsize : v.size = 32 + (24 + v.text.length + 1) := by
    simp only [Value.size]
    omega
  intro a mem ha hpacked hhigh
  rw [hsize] at hhigh ⊢
  obtain ⟨mem', hmem', hsame, hstmt, hpayload⟩ := unpacks_statement
    (fun h hsame => h.congr hsame) (bodyUnpacks_value v hbound) hbound hlimit
    (by omega) a mem ha hpacked hhigh
  refine ⟨mem', hmem', hsame, hstmt.statementAt ha ?_ ?_⟩
  · exact Set.Ico_subset_Ico (by omega) (by omega)
  · apply hpayload.congr (eqOn_refl _ _)
    exact Set.Ico_subset_Ico (by omega) (by omega)

end Values

section Lists

variable {limit bound fuel : ℕ}

theorem unpacksFields_keyword (k : Keyword) (hbound : bound ≤ 2 ^ 64) (hlimit : bound ≤ limit)
    (hfuel : 0 < fuel) : keywordLayout.UnpacksFields
    (decompressKeyword (decompressStatementHelper limit fuel)) bound k := by
  rintro a mem ⟨hcode, hvalue⟩ hhigh
  have hblock : keywordLayout.block k = 16 + 16 + k.width := rfl
  simp only [keywordLayout, KeywordAt, keywordFootprint]
  unfold decompressKeyword
  cases hk : k.value with
  | none =>
    rw [hk] at hvalue
    have hnull : load mem 8 (a + 8) = 0 := hvalue
    refine ⟨mem, by rw [callDecompressHelper, if_pos hnull],
      fun b _ => rfl, subset_union_left, hcode, ?_⟩
    exact hnull
  | some v =>
    rw [hk] at hvalue
    have hwidth : k.width = v.size := by simp [Keyword.width, hk]
    obtain ⟨mem', hmem', hsame, hload, hat⟩ := callDecompressHelper_spec
      (unpacks_value v hbound hlimit hfuel) (fun h hsame => h.congr hsame)
      hbound v.size_pos hvalue.1 hvalue.2 (by omega) (by omega)
    rw [hwidth]
    refine ⟨mem', hmem', ?_, subset_union_left, ?_, ?_⟩
    · intro b hb
      simp only [mem_union, mem_Ico] at hb
      exact hsame b (by omega)
    · rw [← hcode]
      apply load_congr
      rintro b ⟨-, hup⟩
      exact hsame b (by omega)
    · rw [hload]
      exact hat.congr (eqOn_refl _ _) subset_union_right

/-- A statement that points to a list; what follows is the restored list. -/
theorem unpacks_list {α : Type*} (L : Layout α) {type : StatementType}
    {fields : ℕ → Memory → Option Memory} {xs : List α}
    (hbody : ∀ v mem, decompressBody (decompressStatementHelper limit fuel) fuel
    (some type) v mem = unpackList L.front v fields fuel v mem)
    (hfields : ∀ x ∈ xs, L.UnpacksFields fields bound x) (hbound : bound ≤ 2 ^ 64)
    (hlimit : bound ≤ limit) (hfuel : xs.length ≤ fuel) : Unpacks (32 + L.total xs) bound
    (fun mem a => PackedStatement mem a type ∧ xs ≠ [] ∧ L.PackedFrom mem (a + 32) xs)
    (fun mem a => UnpackedStatement mem a type ∧ xs ≠ [] ∧ L.UnpackedFrom mem (a + 32) (a + 32) xs)
    (decompressStatementHelper limit (fuel + 1)) := by
  by_cases hne : xs = []
  · intro a mem _ hpacked
    exact absurd hne hpacked.2.1
  have hpos : 0 < L.total xs :=
    Nat.lt_of_lt_of_le (length_pos_iff.mpr hne) (L.length_le_total xs)
  have hunpacks : BodyUnpacks limit bound fuel (L.total xs) type
      (fun mem a => xs ≠ [] ∧ L.PackedFrom mem a xs)
      (fun mem a => xs ≠ [] ∧ L.UnpackedFrom mem a a xs) := by
    rintro v mem ⟨_, hpacked⟩ hhigh
    obtain ⟨mem', hmem', hsame, hunpacked⟩ := Layout.unpackList_spec hne
      hfields hbound hfuel hpacked (.inl rfl) hhigh
    refine ⟨mem', (hbody v mem).trans hmem', ?_, hne, hunpacked⟩
    intro b hb
    apply hsame
    have hblock : L.front + 16 ≤ L.total xs := by
      obtain ⟨x, rest, rfl⟩ := exists_cons_of_ne_nil hne
      simp only [Layout.total, Layout.block]
      omega
    simp only [Layout.restored, mem_ofPred_eq]
    omega
  exact unpacks_statement (fun h hsame => ⟨h.1, h.2.congr fun b hlow hup _ => hsame ⟨hlow, hup⟩⟩)
    hunpacks hbound hlimit hpos

/-- The restored list of a statement is a circular one. -/
theorem ring_of_unpacked {α : Type*} {L : Layout α} {mem : Memory} {a : ℕ} {xs : List α}
    {region : Set ℕ} (hne : xs ≠ []) (hunpacked : L.UnpackedFrom mem a a xs)
    (hregion : Set.Ico a (a + L.total xs) ⊆ region) : L.Ring mem region a xs := by
  refine ⟨hne, hunpacked.ringFrom (.inl rfl) ?_ ?_ hne⟩
  · intro b hlow hup
    exact hregion ⟨hlow, hup⟩
  · obtain ⟨x, rest, rfl⟩ := exists_cons_of_ne_nil hne
    simp only [Layout.total, Layout.block] at hregion
    exact (Set.Ico_subset_Ico (by omega) (by omega)).trans hregion

theorem unpacks_keywords (ks : List Keyword) (hbound : bound ≤ 2 ^ 64)
    (hlimit : bound ≤ limit) (hfuel : keywordsSize ks ≤ fuel) :
    Unpacks (keywordsSize ks) bound (fun mem a => PackedKeywords mem a ks)
      (fun mem a => KeywordsAt mem (Set.Ico a (a + keywordsSize ks)) a ks)
      (decompressStatementHelper limit fuel) := by
  simp only [keywordsSize] at hfuel ⊢
  obtain ⟨fuel, rfl⟩ : ∃ j, fuel = j + 1 := ⟨fuel - 1, by omega⟩
  have hlength := keywordLayout.length_le_total ks
  intro a mem ha hpacked hhigh
  obtain ⟨mem', hmem', hsame, hstmt, hne, hunpacked⟩ := unpacks_list
    keywordLayout (fun v mem => rfl)
    (fun k _ => unpacksFields_keyword k hbound hlimit (by omega : 0 < fuel))
    hbound hlimit (by omega) a mem ha hpacked hhigh
  refine ⟨mem', hmem', hsame, hstmt.statementAt ha ?_ ?_⟩
  · exact Set.Ico_subset_Ico (by omega) (by omega)
  · exact ring_of_unpacked hne hunpacked (Set.Ico_subset_Ico (by omega) (by omega))

theorem unpacksFields_column (c : Column) (hbound : bound ≤ 2 ^ 64) (hlimit : bound ≤ limit)
    (hfuel : c.width ≤ fuel) : columnLayout.UnpacksFields
    (decompressColumn (decompressStatementHelper limit fuel)) bound c := by
  rintro a mem ⟨hnamePtr, hname, htype, hptr, hks⟩ hhigh
  have hblock : columnLayout.block c = 32 + 16 + c.width := rfl
  have hpos := c.name.size_pos
  simp only [Column.width] at hfuel hblock
  obtain ⟨mem1, hmem1, hsame1, hload1, hname1⟩ := callDecompressHelper_spec
    (unpacks_value c.name hbound hlimit (by omega : 0 < fuel))
    (fun h hsame => h.congr hsame) hbound hpos hnamePtr hname (by omega) (by omega)
  have hptr1 : Relative mem1 (a + 24) (a + 48 + c.name.size) := by
    apply hptr.congr
    rintro b ⟨hlow, hup⟩
    exact (hsame1 b (by omega)).symm
  have hks1 : PackedKeywords mem1 (a + 48 + c.name.size) c.keywords := by
    apply hks.congr
    rintro b ⟨hlow, -⟩
    exact (hsame1 b (by omega)).symm
  obtain ⟨mem2, hmem2, hsame2, hload2, hks2⟩ := callDecompressHelper_spec
    (unpacks_keywords c.keywords hbound hlimit (by omega : keywordsSize c.keywords ≤ fuel))
    (fun h hsame => h.congr hsame) hbound (keywordsSize_pos _) hptr1 hks1 (by omega) (by omega)
  simp only [columnLayout, ColumnAt, columnFootprint, Column.width]
  refine ⟨mem2, ?_, ?_, ?_, ?_, ?_, ?_, ?_⟩
  · simp [decompressColumn, hmem1, hmem2]
  · intro b hb
    simp only [mem_union, mem_Ico] at hb
    rw [hsame2 b (by omega), hsame1 b (by omega)]
  · exact subset_union_left.trans subset_union_left
  · exact subset_union_right.trans subset_union_left
  · have hloadName : load mem2 8 a = a + 48 := by
      rw [← hload1]
      apply load_congr
      rintro b ⟨-, hup⟩
      exact hsame2 b (by omega)
    rw [hloadName]
    apply hname1.congr
    · rintro b ⟨hlow, hup⟩
      exact (hsame2 b (by omega)).symm
    · exact (Set.Ico_subset_Ico (by omega) (by omega)).trans subset_union_right
  · rw [← htype]
    apply load_congr
    rintro b ⟨hlow, hup⟩
    rw [hsame2 b (by omega), hsame1 b (by omega)]
  · rw [hload2]
    apply hks2.congr (eqOn_refl _ _)
    exact (Set.Ico_subset_Ico (by omega) (by omega)).trans subset_union_right

/-- A restored column list: the columns are one behind the other. -/
def UnpackedColumns (mem : Memory) (a : ℕ) (cs : List Column) : Prop :=
  UnpackedStatement mem a .columnStatement ∧ cs ≠ [] ∧
    columnLayout.UnpackedFrom mem (a + 32) (a + 32) cs

theorem unpacks_columns (cs : List Column) (hbound : bound ≤ 2 ^ 64) (hlimit : bound ≤ limit)
    (hfuel : columnsSize cs ≤ fuel) :
    Unpacks (columnsSize cs) bound (fun mem a => PackedColumns mem a cs)
    (fun mem a => UnpackedColumns mem a cs) (decompressStatementHelper limit fuel) := by
  simp only [columnsSize] at hfuel ⊢
  obtain ⟨fuel, rfl⟩ : ∃ j, fuel = j + 1 := ⟨fuel - 1, by omega⟩
  have hlength := columnLayout.length_le_total cs
  apply unpacks_list columnLayout (fun v mem => rfl) _ hbound hlimit (by omega)
  intro c hc
  have hblock := columnLayout.block_le_total hc
  have hwidth : columnLayout.block c = 32 + 16 + c.width := rfl
  exact unpacksFields_column c hbound hlimit (by omega)

end Lists

section Tables

variable {limit bound fuel : ℕ}

/-- A restored table, without its statement. -/
def UnpackedFields (mem : Memory) (a : ℕ) (t : Table) : Prop :=
  (load mem 8 a = a + 48 ∧ ValueAt mem (Set.Ico (a + 48) (a + 48 + t.name.size)) (a + 48) t.name) ∧
  (load mem 8 (a + 8) = a + 48 + t.name.size ∧ KeywordsAt mem (Set.Ico (a + 48 + t.name.size)
    (a + 48 + t.name.size + keywordsSize t.source)) (a + 48 + t.name.size) t.source) ∧
  (load mem 8 (a + 16) = a + 48 + t.name.size + keywordsSize t.source ∧
    UnpackedColumns mem (a + 48 + t.name.size + keywordsSize t.source) t.columns) ∧
  load mem 8 (a + 24) = a + 48 + t.name.size + keywordsSize t.source + columnsSize t.columns ∧
  KeywordsAt mem (Set.Ico (a + 48 + t.name.size + keywordsSize t.source + columnsSize t.columns)
      (a + 48 + t.name.size + keywordsSize t.source + columnsSize t.columns + keywordsSize t.delim))
    (a + 48 + t.name.size + keywordsSize t.source + columnsSize t.columns)
    t.delim

/-- A restored table: everything is where it was written. -/
def UnpackedTable (mem : Memory) (a : ℕ) (t : Table) : Prop :=
  UnpackedStatement mem a .tableStatement ∧ UnpackedFields mem (a + 32) t

variable {mem mem' : Memory} {a : ℕ} {cs : List Column} {t : Table}

theorem UnpackedColumns.congr (hcs : UnpackedColumns mem a cs)
    (hstmt : Set.EqOn mem mem' (Set.Ico a (a + 32)))
    (hlist : Set.EqOn mem mem' (columnLayout.occupied (a + 32) cs)) :
    UnpackedColumns mem' a cs := by
  obtain ⟨⟨htype, hptr⟩, hne, hunpacked⟩ := hcs
  refine ⟨⟨?_, ?_⟩, hne, hunpacked.congr hlist ?_⟩
  · rw [← htype]
    exact (load_congr (hstmt.mono (Set.Ico_subset_Ico (by omega) (by omega)))).symm
  · rw [← hptr]
    exact (load_congr (hstmt.mono (Set.Ico_subset_Ico (by omega) (by omega)))).symm
  · obtain ⟨c, rest, rfl⟩ := exists_cons_of_ne_nil hne
    apply hlist.mono
    intro b hb
    refine .inl (.inr ⟨?_, hb.2⟩)
    have := hb.1
    omega

theorem occupied_subset {b : ℕ} (hb : b ∈ columnLayout.occupied a cs) :
    a ≤ b ∧ b < a + columnLayout.total cs := by
  induction cs generalizing a with
  | nil => exact absurd hb (by simp [Layout.occupied])
  | cons c rest ih =>
    have hblock : columnLayout.block c = columnLayout.front + 16 + columnLayout.width c := rfl
    simp only [Layout.total]
    rcases hb with (hb | hb) | hb
    · have := columnLayout.footprint_cases hb
      omega
    · have hlow := hb.1
      have hup := hb.2
      omega
    · have := ih hb
      omega

theorem UnpackedColumns.congr_block (hcs : UnpackedColumns mem a cs)
    (hsame : Set.EqOn mem mem' (Set.Ico a (a + columnsSize cs))) : UnpackedColumns mem' a cs := by
  simp only [columnsSize] at hsame
  apply hcs.congr
  · exact hsame.mono (Set.Ico_subset_Ico (by omega) (by omega))
  · intro b hb
    have := occupied_subset hb
    exact hsame ⟨by omega, by omega⟩

theorem bodyUnpacks_table (t : Table) (hbound : bound ≤ 2 ^ 64) (hlimit : bound ≤ limit)
    (hfuel : t.size ≤ fuel) :
    BodyUnpacks limit bound fuel (48 + t.name.size + keywordsSize t.source +
    columnsSize t.columns + keywordsSize t.delim) .tableStatement
    (fun mem a => PackedFields mem a t) (fun mem a => UnpackedFields mem a t) := by
  rintro a mem ⟨⟨hptr1, hname⟩, ⟨hptr2, hsource⟩, ⟨hptr3, hcolumns⟩, hptr4, hdelim⟩ hhigh
  simp only [Table.size] at hfuel
  have hpos := t.name.size_pos
  have hpos2 := keywordsSize_pos t.source
  have hpos3 := columnsSize_pos t.columns
  have hpos4 := keywordsSize_pos t.delim
  obtain ⟨mem1, hmem1, hsame1, hload1, hname1⟩ := callDecompressHelper_spec
    (unpacks_value t.name hbound hlimit (by omega : 0 < fuel))
    (fun h hsame => h.congr hsame) hbound hpos hptr1 hname (by omega) (by omega)
  -- What is still to be restored is as it was.
  have hahead1 : ∀ b, a + 8 ≤ b ∧ b < a + 48 ∨ a + 48 + t.name.size ≤ b →
      mem b = mem1 b := fun b hb => (hsame1 b (by omega)).symm
  obtain ⟨mem2, hmem2, hsame2, hload2, hsource2⟩ := callDecompressHelper_spec
    (unpacks_keywords t.source hbound hlimit (by omega : keywordsSize t.source ≤ fuel))
    (fun h hsame => h.congr hsame) hbound hpos2 (hptr2.congr fun b hb => hahead1 b (.inl ⟨hb.1, by
      have := hb.2
      omega⟩))
    (hsource.congr fun b hb => hahead1 b (.inr hb.1)) (by omega) (by omega)
  have hahead2 : ∀ b, a + 16 ≤ b ∧ b < a + 48 ∨
      a + 48 + t.name.size + keywordsSize t.source ≤ b → mem b = mem2 b := by
    intro b hb
    rw [hsame2 b (by omega), hahead1 b (by omega)]
  obtain ⟨mem3, hmem3, hsame3, hload3, hcolumns3⟩ := callDecompressHelper_spec
    (unpacks_columns t.columns hbound hlimit (by omega : columnsSize t.columns ≤ fuel))
    (fun h hsame => h.congr hsame) hbound hpos3 (hptr3.congr fun b hb => hahead2 b (.inl ⟨hb.1, by
      have := hb.2
      omega⟩))
    (hcolumns.congr fun b hb => hahead2 b (.inr hb.1)) (by omega) (by omega)
  have hahead3 : ∀ b, a + 24 ≤ b ∧ b < a + 48 ∨
      a + 48 + t.name.size + keywordsSize t.source + columnsSize t.columns ≤
        b → mem b = mem3 b := by
    intro b hb
    rw [hsame3 b (by omega), hahead2 b (by omega)]
  obtain ⟨mem4, hmem4, hsame4, hload4, hdelim4⟩ := callDecompressHelper_spec
    (unpacks_keywords t.delim hbound hlimit (by omega : keywordsSize t.delim ≤ fuel))
    (fun h hsame => h.congr hsame) hbound hpos4 (hptr4.congr fun b hb => hahead3 b (.inl ⟨hb.1, by
      have := hb.2
      omega⟩))
    (hdelim.congr fun b hb => hahead3 b (.inr hb.1)) (by omega) (by omega)
  -- What is restored stays as it is.
  have hbehind3 : ∀ b, b < a + 24 ∨ a + 48 ≤ b ∧ b < a + 48 + t.name.size + keywordsSize t.source +
      columnsSize t.columns → mem3 b = mem4 b :=
    fun b hb => (hsame4 b (by omega)).symm
  have hbehind2 : ∀ b, b < a + 16 ∨ a + 48 ≤ b ∧ b < a + 48 + t.name.size + keywordsSize t.source →
      mem2 b = mem4 b := by
    intro b hb
    rw [← hbehind3 b (by omega), hsame3 b (by omega)]
  have hbehind1 : ∀ b, b < a + 8 ∨ a + 48 ≤ b ∧ b < a + 48 + t.name.size → mem1 b = mem4 b := by
    intro b hb
    rw [← hbehind2 b (by omega), hsame2 b (by omega)]
  refine ⟨mem4, ?_, ?_, ⟨?_, ?_⟩, ⟨?_, ?_⟩, ⟨?_, ?_⟩, hload4, hdelim4⟩
  · simp [decompressBody, decompressTable, hmem1, hmem2, hmem3, hmem4]
  · intro b hb
    rw [hsame4 b (by omega), hsame3 b (by omega), hsame2 b (by omega), hsame1 b (by omega)]
  · rw [← hload1]
    exact (load_congr fun b hb => hbehind1 b (.inl hb.2)).symm
  · apply hname1.congr _ (Set.Subset.refl _)
    exact fun b hb => hbehind1 b (.inr hb)
  · rw [← hload2]
    exact (load_congr fun b hb => hbehind2 b (.inl (by
      have := hb.2
      omega))).symm
  · apply hsource2.congr _ (Set.Subset.refl _)
    exact fun b hb => hbehind2 b (.inr ⟨by have := hb.1; omega, hb.2⟩)
  · rw [← hload3]
    exact (load_congr fun b hb => hbehind3 b (.inl (by
      have := hb.2
      omega))).symm
  · apply hcolumns3.congr_block
    exact fun b hb => hbehind3 b (.inr ⟨by have := hb.1; omega, hb.2⟩)

theorem PackedFields.congr (hpacked : PackedFields mem a t)
    (hsame : Set.EqOn mem mem' (Set.Ico a (a + (48 + t.name.size +
      keywordsSize t.source + columnsSize t.columns +
      keywordsSize t.delim)))) : PackedFields mem' a t := by
  obtain ⟨⟨hptr1, hname⟩, ⟨hptr2, hsource⟩, ⟨hptr3, hcolumns⟩, hptr4, hdelim⟩ := hpacked
  have hpart : ∀ {low high}, a ≤ low → high ≤ a + (48 + t.name.size +
      keywordsSize t.source + columnsSize t.columns +
      keywordsSize t.delim) → Set.EqOn mem mem' (Set.Ico low high) :=
    fun hlow hhigh => hsame.mono (Set.Ico_subset_Ico hlow hhigh)
  refine ⟨⟨hptr1.congr ?_, hname.congr ?_⟩, ⟨hptr2.congr ?_, hsource.congr ?_⟩,
    ⟨hptr3.congr ?_, hcolumns.congr ?_⟩, hptr4.congr ?_, hdelim.congr ?_⟩
  all_goals exact hpart (by omega) (by omega)

theorem PackedTable.congr (hpacked : PackedTable mem a t)
    (hsame : Set.EqOn mem mem' (Set.Ico a (a + t.size))) : PackedTable mem' a t := by
  simp only [Table.size] at hsame
  constructor
  · exact hpacked.1.congr (hsame.mono (Set.Ico_subset_Ico (by omega) (by omega)))
  · exact hpacked.2.congr (hsame.mono (Set.Ico_subset_Ico (by omega) (by omega)))

/-- A copy of a written table is one. -/
theorem PackedTable.copied {base : ℕ} (hpacked : PackedTable mem a t)
    (hsame : ∀ i < t.size, mem' (base + i) = mem (a + i)) : PackedTable mem' base t := by
  have hview : PackedTable (view mem a) 0 t := packedTable_view.mpr hpacked
  have hview' : PackedTable (view mem' base) 0 t := by
    apply hview.congr
    intro b hb
    exact (hsame b (by have := hb.2; omega)).symm
  exact packedTable_view.mp hview'

theorem unpacks_table (t : Table) (hbound : bound ≤ 2 ^ 64) (hlimit : bound ≤ limit)
    (hfuel : t.size < fuel) : Unpacks t.size bound (fun mem a => PackedTable mem a t)
    (fun mem a => UnpackedTable mem a t) (decompressStatementHelper limit fuel) := by
  obtain ⟨fuel, rfl⟩ : ∃ j, fuel = j + 1 := ⟨fuel - 1, by omega⟩
  have hsize := t.size_eq
  have hbody := bodyUnpacks_table t hbound hlimit (by omega : t.size ≤ fuel)
  rw [hsize]
  exact unpacks_statement (fun h hsame => h.congr hsame) hbody hbound hlimit (by omega)

/-- A restored table is the table. -/
theorem UnpackedTable.tableAt (htable : UnpackedTable mem a t) (ha : a ≠ 0) :
    TableAt mem (Set.Ico a (a + t.size)) a t := by
  obtain ⟨hstmt, ⟨hload1, hname⟩, ⟨hload2, hsource⟩, ⟨hload3, hcolumns⟩, hload4, hdelim⟩ := htable
  have hsize := t.size_eq
  apply hstmt.statementAt ha
  · exact Set.Ico_subset_Ico (by omega) (by omega)
  refine ⟨Set.Ico_subset_Ico (by omega) (by omega), ?_, ?_, ?_, ?_⟩
  · rw [hload1]
    exact hname.congr (eqOn_refl _ _) (Set.Ico_subset_Ico (by omega) (by omega))
  · rw [hload2]
    exact hsource.congr (eqOn_refl _ _) (Set.Ico_subset_Ico (by omega) (by omega))
  · rw [hload3]
    obtain ⟨hcolumnStmt, hne, hunpacked⟩ := hcolumns
    simp only [columnsSize] at hsize
    apply hcolumnStmt.statementAt (by omega)
    · exact Set.Ico_subset_Ico (by omega) (by omega)
    · exact ring_of_unpacked hne hunpacked (Set.Ico_subset_Ico (by omega) (by omega))
  · rw [hload4]
    exact hdelim.congr (eqOn_refl _ _) (Set.Ico_subset_Ico (by omega) (by omega))

end Tables

end TableStatement

end Octo
