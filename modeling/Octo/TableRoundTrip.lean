/-
A table statement that is compressed, copied to another address and
decompressed is the same table.
-/
import Mathlib.Data.List.Induction
import Octo.DecompressStatement

namespace Octo

open Option

namespace TableStatement

open ByteMemory RelativeList

/-- Memory, of which everything from `free` on is free. -/
structure Heap where
  mem : Memory
  free : ℕ

def octoCmalloc (size : ℕ) (h : Heap) : ℕ × Heap :=
  (h.free, { h with free := h.free + size })

def Heap.store (h : Heap) (width addr value : ℕ) : Heap :=
  { h with mem := ByteMemory.store h.mem width addr value }

def packSqlStatement (type : StatementType) (item : ℕ) (h : Heap) : ℕ × Heap :=
  let (stmt, h) := octoCmalloc 32 h
  (stmt, (h.store 4 stmt type.code).store 8 (stmt + 24) item)

/-- `get_keyword_from_keywords`; the inner none is NULL. -/
def getKeywordFromKeywords (mem : Memory) (keyword : OptionalKeyword)
    (start : ℕ) : ℕ → ℕ → Option (Option ℕ)
  | 0, _ => none
  | fuel + 1, cur =>
    if load mem 4 cur = keyword.code then some (some cur)
    else
      let next := load mem 8 (cur + 16)
      if next = start then some none
      else getKeywordFromKeywords mem keyword start fuel next

/-- `UNPACK_SQL_STATEMENT`, with its assertion. -/
def unpackSqlStatement (mem : Memory) (item : ℕ) (type : StatementType) : Option ℕ :=
  if load mem 4 item = type.code then some (load mem 8 (item + 24)) else none

def getKeyword (mem : Memory) (column : ℕ) (keyword : OptionalKeyword)
    (fuel : ℕ) : Option (Option ℕ) := do
  let start ← unpackSqlStatement mem (load mem 8 (column + 24)) .keywordStatement
  getKeywordFromKeywords mem keyword start fuel start

/-- The decimal digits of a number, with the end of the string. -/
def decimal (i : ℕ) : List UInt8 :=
  (Nat.toDigits 10 i).map (fun c => UInt8.ofNat c.toNat) ++ [0]

def Heap.storeBytes (h : Heap) (addr : ℕ) (bytes : List UInt8) : Heap :=
  (bytes.foldl (fun (state : Heap × ℕ) byte =>
    (state.1.store 1 state.2 byte.toNat, state.2 + 1)) (h, addr)).1

def insertPiece (i cur : ℕ) (h : Heap) : Option Heap := do
  let (_, h) := octoCmalloc 32 h
  let (keyword, h) := octoCmalloc 32 h
  let h := h.store 4 keyword OptionalKeyword.optionalPiece.code
  let (text, h) := octoCmalloc (decimal i).length h
  let h := h.storeBytes text (decimal i)
  let (stmt, h) := octoCmalloc 32 h
  let h := (h.store 4 stmt StatementType.valueStatement.code).store 8 (keyword + 8) stmt
  let (value, h) := octoCmalloc 24 h
  let h := h.store 8 (stmt + 24) value
  let h := (h.store 4 value ValueType.stringLiteral.code).store 8 (value + 16) text
  let (_, h) := packSqlStatement .keywordStatement keyword h
  let h := (h.store 8 (keyword + 16) keyword).store 8 (keyword + 24) keyword
  let self ← unpackSqlStatement h.mem (load h.mem 8 (cur + 24)) .keywordStatement
  -- `dqinsert`: the keyword becomes the last one.
  let last := load h.mem 8 (self + 24)
  let h := (h.store 8 (last + 16) keyword).store 8 (self + 24) keyword
  some ((h.store 8 (keyword + 16) self).store 8 (keyword + 24) last)

/-- One column of `assign_table_to_columns`. -/
def assignColumn (fuel table i cur : ℕ) (h : Heap) : Option Heap := do
  let (stmt, h) := packSqlStatement .tableStatement table h
  let h := h.store 8 (cur + 16) stmt
  match ← getKeyword h.mem cur .optionalPiece fuel with
  | some _ => some h
  | none => insertPiece i cur h

def assignColumns (piecesFuel table start : ℕ) : ℕ → ℕ → ℕ → Heap → Option Heap
  | 0, _, _, _ => none
  | fuel + 1, i, cur, h => do
    let h ← assignColumn piecesFuel table (i + 1) cur h
    let next := load h.mem 8 (cur + 32)
    if next = start then some h
    else assignColumns piecesFuel table start fuel (i + 1) next h

def assignTableToColumns (fuel stmt : ℕ) (h : Heap) : Option Heap := do
  let table ← unpackSqlStatement h.mem stmt .tableStatement
  let start ← unpackSqlStatement h.mem (load h.mem 8 (table + 16)) .columnStatement
  assignColumns fuel table start fuel 0 start h

section Keywords

variable {mem : Memory} {region : Set ℕ} {fuel : ℕ} {keyword : OptionalKeyword}

theorem OptionalKeyword.code_inj {first second : OptionalKeyword}
    (hcode : first.code = second.code) : first = second := by
  cases first <;> cases second <;> first | rfl | exact absurd hcode (by decide)

theorem getKeywordFromKeywords_found {start cur : ℕ} {ks : List Keyword}
    (hring : keywordLayout.RingFrom mem region start cur ks)
    (hkeyword : ∃ k ∈ ks, k.keyword = keyword) (hfuel : ks.length ≤ fuel) :
    ∃ found, getKeywordFromKeywords mem keyword start fuel cur = some (some found) := by
  induction ks generalizing cur fuel with
  | nil =>
    obtain ⟨k, hk, _⟩ := hkeyword
    simp at hk
  | cons k rest ih =>
    obtain ⟨fuel, rfl⟩ : ∃ j, fuel = j + 1 :=
      Nat.exists_eq_add_one_of_ne_zero (by
        rintro rfl
        simp at hfuel)
    obtain ⟨⟨_, hcode, _⟩, _, hnext, _, _, hrest⟩ := hring
    by_cases hfound : k.keyword = keyword
    · refine ⟨cur, ?_⟩
      rw [getKeywordFromKeywords, if_pos (by rw [hcode, hfound])]
    · have hnot : load mem 4 cur ≠ keyword.code := by
        rw [hcode]
        exact fun h => hfound (OptionalKeyword.code_inj h)
      have hin : ∃ k' ∈ rest, k'.keyword = keyword := by
        obtain ⟨k', hk', hkeyword'⟩ := hkeyword
        rcases List.mem_cons.mp hk' with rfl | hk'
        · exact absurd hkeyword' hfound
        · exact ⟨k', hk', hkeyword'⟩
      have hne : rest ≠ [] := by
        rintro rfl
        obtain ⟨k', hk', _⟩ := hin
        simp at hk'
      have hnotStart : load mem 8 (cur + 16) ≠ start := hnext hne
      obtain ⟨found, hfoundRest⟩ := ih hrest hin (by simpa using hfuel)
      refine ⟨found, ?_⟩
      rw [getKeywordFromKeywords, if_neg hnot]
      simp only [if_neg hnotStart]
      exact hfoundRest

theorem getKeyword_found {a : ℕ} {c : Column}
    (hcolumn : ColumnAt mem region a c) (hfuel : c.keywords.length ≤ fuel) :
    ∃ found, getKeyword mem a .optionalPiece fuel = some (some found) := by
  obtain ⟨_, _, _, _, hkeywords⟩ := hcolumn
  obtain ⟨_, _, _, htype, _, hring⟩ := hkeywords
  obtain ⟨found, hfound⟩ :=
    getKeywordFromKeywords_found hring.2 c.hasPiece hfuel
  refine ⟨found, ?_⟩
  simp only [getKeyword, unpackSqlStatement, htype, if_true, bind_eq_bind, bind_some]
  exact hfound

end Keywords

def tableFields : ℕ → List Column → Set ℕ
  | _, [] => ∅
  | a, c :: rest =>
    Set.Ico (a + 16) (a + 24) ∪ tableFields (a + columnLayout.block c) rest

section Assign

variable {fuel start : ℕ}

variable {cs : List Column} {a b : ℕ}

theorem tableFields_subset (hb : b ∈ tableFields a cs) : a ≤ b ∧ b < a + columnLayout.total cs := by
  induction cs generalizing a with
  | nil => exact absurd hb (by simp [tableFields])
  | cons c rest ih =>
    have hblock : columnLayout.block c = 32 + 16 + c.width := rfl
    simp only [Layout.total]
    rcases hb with hb | hb
    · have hlow := hb.1
      have hup := hb.2
      omega
    · have := ih hb
      omega

/-- The table fields belong to no column. -/
theorem not_mem_tableFields (hb : b ∈ columnLayout.occupied a cs) : b ∉ tableFields a cs := by
  induction cs generalizing a with
  | nil => simp [tableFields]
  | cons c rest ih =>
    have hblock : columnLayout.block c = 32 + 16 + c.width := rfl
    have hfront : columnLayout.front = 32 := rfl
    rintro (hfield | hfield)
    · have hlow := hfield.1
      have hup := hfield.2
      rcases hb with (((hb | hb) | hb) | hb) | hb
      · have := hb.2
        omega
      · have := hb.1
        omega
      · have := hb.1
        omega
      · have := hb.1
        omega
      · have := occupied_subset hb
        omega
    · have hrest := tableFields_subset hfield
      rcases hb with (hb | hb) | hb
      · have := columnLayout.footprint_cases hb
        have hwidth : columnLayout.width c = c.width := rfl
        omega
      · have := hb.2
        omega
      · exact ih hb hfield

/-- A column that has a PIECE only gets its table. -/
theorem assignColumn_spec (table i : ℕ) {c : Column} {h : Heap}
    (hcolumn : ColumnAt h.mem (columnFootprint a c) a c) (hfree : a + columnLayout.block c ≤ h.free)
    (hfuel : c.keywords.length ≤ fuel) :
    ∃ h', assignColumn fuel table i a h = some h' ∧ h.free ≤ h'.free ∧
    ∀ b < h.free, b ∉ Set.Ico (a + 16) (a + 24) → h'.mem b = h.mem b := by
  have hblock : columnLayout.block c = 32 + 16 + c.width := rfl
  obtain ⟨h', hh'⟩ : ∃ h', h' =
      (packSqlStatement .tableStatement table h).2.store 8 (a + 16) h.free :=
    ⟨_, rfl⟩
  have hmem : ∀ b < h.free, b ∉ Set.Ico (a + 16) (a + 24) → h'.mem b = h.mem b := by
    intro b hb hnot
    simp only [Set.mem_Ico] at hnot
    simp only [hh', packSqlStatement, octoCmalloc, Heap.store]
    rw [store_apply (by omega), store_apply (by omega), store_apply (by omega)]
  have hcolumn' : ColumnAt h'.mem (columnFootprint a c) a c := by
    apply hcolumn.congr _ (Set.Subset.refl _)
    intro b hb
    refine (hmem b ?_ ?_).symm
    · rcases hb with (hb | hb) | hb
      all_goals
        have := hb.2
        omega
    · rintro ⟨hlow, hup⟩
      rcases hb with (hb | hb) | hb
      · have := hb.2
        omega
      · have := hb.1
        omega
      · have := hb.1
        omega
  obtain ⟨found, hfound⟩ := getKeyword_found hcolumn' hfuel
  refine ⟨h', ?_, ?_, hmem⟩
  · rw [hh'] at hfound ⊢
    simp only [packSqlStatement, octoCmalloc, Heap.store] at hfound ⊢
    simp [assignColumn, packSqlStatement, octoCmalloc, Heap.store, hfound]
  · simp only [hh', packSqlStatement, octoCmalloc, Heap.store]
    omega

theorem assignColumns_spec (table i : ℕ) (h : Heap) (hne : cs ≠ []) {n : ℕ}
    (hcolumns : columnLayout.UnpackedFrom h.mem start a cs) (hstart : start = a ∨ start + 48 ≤ a)
    (hfree : a + columnLayout.total cs ≤ h.free) (hfuel : columnLayout.total cs ≤ fuel)
    (hn : cs.length ≤ n) : ∃ h', assignColumns fuel table start n i a h = some h' ∧
    ∀ b < h.free, b ∉ tableFields a cs → h'.mem b = h.mem b := by
  induction cs generalizing a i n h with
  | nil => exact absurd rfl hne
  | cons c rest ih =>
    obtain ⟨n, rfl⟩ : ∃ j, n = j + 1 :=
      Nat.exists_eq_add_one_of_ne_zero (by
        rintro rfl
        simp at hn)
    have hblock : columnLayout.block c = 32 + 16 + c.width := rfl
    have hfront : columnLayout.front = 32 := rfl
    obtain ⟨hnode, hnext, hprev, hrest⟩ := hcolumns
    simp only [Layout.total] at hfree hfuel
    have hkeywords : c.keywords.length ≤ fuel := by
      have := keywordLayout.length_le_total c.keywords
      simp only [Column.width, keywordsSize] at hblock
      omega
    obtain ⟨h1, hh1, hfree1, hmem1⟩ := assignColumn_spec table (i + 1) hnode (by omega) hkeywords
    have hnext1 : load h1.mem 8 (a + 32) =
        Layout.nextAddr start (a + columnLayout.block c) rest := by
      rw [← hnext]
      apply load_congr
      rintro b ⟨hlow, hup⟩
      apply hmem1 b (by omega)
      rintro ⟨_, hup'⟩
      omega
    cases rest with
    | nil =>
      refine ⟨h1, ?_, ?_⟩
      · simp [assignColumns, hh1, hnext1, Layout.nextAddr]
      · intro b hb hnot
        exact hmem1 b hb fun hin => hnot (Or.inl hin)
    | cons d rest =>
      have hnotStart : a + columnLayout.block c ≠ start := by omega
      have hrest1 : columnLayout.UnpackedFrom h1.mem start
          (a + columnLayout.block c) (d :: rest) := by
        apply hrest.congr
        · intro b hb
          have := occupied_subset hb
          refine (hmem1 b (by omega) ?_).symm
          rintro ⟨_, hup⟩
          omega
        · rintro b ⟨hlow, hup⟩
          refine (hmem1 b (by omega) ?_).symm
          rintro ⟨hlow', hup'⟩
          omega
      obtain ⟨h2, hh2, hmem2⟩ := ih (i + 1) h1 (by simp) hrest1 (by omega)
        (by omega) (by omega) (by simpa using hn)
      refine ⟨h2, ?_, ?_⟩
      · simp only [assignColumns, hh1, bind_eq_bind,
          bind_some, hnext1, Layout.nextAddr, if_neg hnotStart]
        exact hh2
      · intro b hb hnot
        rw [hmem2 b (by omega) fun hin => hnot (Or.inr hin),
          hmem1 b hb fun hin => hnot (Or.inl hin)]

def columnsAddr (a : ℕ) (t : Table) : ℕ :=
  a + 32 + 48 + t.name.size + keywordsSize t.source + 32

theorem UnpackedTable.congr {mem mem' : Memory} {t : Table} (htable : UnpackedTable mem a t)
    (hsame : ∀ b, b < a + t.size → b ∉ tableFields (columnsAddr a t) t.columns → mem' b = mem b) :
    UnpackedTable mem' a t := by
  have hsize : t.size = 32 + 48 + t.name.size + keywordsSize t.source +
      (32 + columnLayout.total t.columns) + keywordsSize t.delim := rfl
  have haway : ∀ b, b < columnsAddr a t ∨
      columnsAddr a t + columnLayout.total t.columns ≤ b → b < a + t.size → mem b = mem' b := by
    intro b hb hup
    refine (hsame b hup fun hin => ?_).symm
    have := tableFields_subset hin
    omega
  unfold columnsAddr at haway hsame
  obtain ⟨⟨htype, hptr⟩, ⟨hload1, hname⟩, ⟨hload2, hsource⟩,
    ⟨hload3, hcolumns⟩, hload4, hdelim⟩ := htable
  have hload : ∀ width addr, addr + width ≤ a + 80 →
      load mem' width addr = load mem width addr := by
    intro width addr hup
    apply load_congr
    intro b hb
    have := hb.2
    exact (haway b (by omega) (by omega)).symm
  refine ⟨⟨?_, ?_⟩, ⟨?_, ?_⟩, ⟨?_, ?_⟩, ⟨?_, ?_⟩, ?_, ?_⟩
  · rw [hload 4 a (by omega), htype]
  · rw [hload 8 (a + 24) (by omega), hptr]
  · rw [hload 8 (a + 32) (by omega), hload1]
  · apply hname.congr _ (Set.Subset.refl _)
    intro b hb
    have := hb.2
    exact haway b (by omega) (by omega)
  · rw [hload 8 (a + 32 + 8) (by omega), hload2]
  · apply hsource.congr _ (Set.Subset.refl _)
    intro b hb
    have := hb.2
    exact haway b (by omega) (by omega)
  · rw [hload 8 (a + 32 + 16) (by omega), hload3]
  · apply hcolumns.congr
    · intro b hb
      have := hb.2
      exact haway b (by omega) (by omega)
    · intro b hb
      have := occupied_subset hb
      exact (hsame b (by omega) (not_mem_tableFields hb)).symm
  · rw [hload 8 (a + 32 + 24) (by omega), hload4]
  · apply hdelim.congr _ (Set.Subset.refl _)
    rintro b ⟨hlow, hup⟩
    simp only [columnsSize] at hlow hup
    exact haway b (by omega) (by omega)

/-- Nothing that belongs to a restored table is changed. -/
theorem assignTableToColumns_spec {t : Table} {free : ℕ} {mem : Memory}
    (htable : UnpackedTable mem a t) (hfree : a + t.size ≤ free) (hfuel : t.size ≤ fuel) :
    ∃ h, assignTableToColumns fuel a ⟨mem, free⟩ = some h ∧ UnpackedTable h.mem a t := by
  have hlength := columnLayout.length_le_total t.columns
  have hsize : t.size = 32 + 48 + t.name.size + keywordsSize t.source +
      (32 + columnLayout.total t.columns) + keywordsSize t.delim := rfl
  obtain ⟨⟨htype, hptr⟩, _, _, ⟨hload3, ⟨hcolumnType, hcolumnPtr⟩, hne, hcolumns⟩, _⟩ := id htable
  have hfits : a + 32 + 48 + t.name.size + keywordsSize t.source + 32 +
      columnLayout.total t.columns ≤ free := by omega
  obtain ⟨h, hh, hmem⟩ := assignColumns_spec (a + 32) 0 ⟨mem, free⟩ hne hcolumns
    (Or.inl rfl) hfits (by omega : columnLayout.total t.columns ≤ fuel)
    (by omega : t.columns.length ≤ fuel)
  refine ⟨h, ?_, htable.congr ?_⟩
  · simp only [assignTableToColumns, unpackSqlStatement, htype, hptr, hload3,
      hcolumnType, hcolumnPtr, if_true, bind_eq_bind, bind_some]
    exact hh
  · intro b hup hnot
    exact hmem b (by simp only; omega) hnot

end Assign

/-- The two passes of `compress_statement` go on by the same number of bytes,
and from a copy of these at any address the table is restored.  The bytes are
counted in an `int`; the text of a table that can be stored is far shorter. -/
theorem compressed_table_is_restored (t : Table) (mem : Memory) (region : Set ℕ) (stmt : ℕ)
    (malloc : ℕ → ℕ) (fuel : ℕ) (htable : TableAt mem region stmt t) (hmalloc : malloc t.size ≠ 0)
    (hspace : malloc t.size + t.size ≤ 2 ^ 64)
    (haway : ∀ b ∈ region, b < malloc t.size ∨ malloc t.size + t.size ≤ b) (hfuel : t.size < fuel)
    (hint : t.size < 2 ^ 31) :
    ∃ length out written, compressStatement malloc fuel stmt mem =
    some (length, out, length, written) ∧ ∀ (mem' : Memory) (base bufferLength free : ℕ), base ≠ 0 →
    length ≤ bufferLength → bufferLength < 2 ^ 31 → base + bufferLength ≤ 2 ^ 64 →
    base + bufferLength ≤ free →
    (∀ i < length, mem' (base + i) = written (out + i)) → ∃ restored heap,
    decompressStatement fuel base bufferLength mem' = some restored ∧
    assignTableToColumns fuel base ⟨restored, free⟩ = some heap ∧
    TableAt heap.mem (Set.Ico base (base + length)) base t := by
  obtain ⟨written, hwritten, hpacked⟩ := compressStatement_spec t htable
    hmalloc (fun _ => ⟨hspace, haway⟩) hfuel hint
  refine ⟨t.size, malloc t.size, written, hwritten, ?_⟩
  intro mem' base bufferLength free hbase hlength _ hbound hfree hcopy
  obtain ⟨restored, hrestored, _, hunpacked⟩ := unpacks_table t hbound
    (Nat.le_refl _) hfuel base mem' hbase (hpacked.copied hcopy) (by omega)
  obtain ⟨heap, hheap, hassigned⟩ := assignTableToColumns_spec hunpacked
    (by omega : base + t.size ≤ free) (Nat.le_of_lt hfuel)
  exact ⟨restored, heap, hrestored, hheap, hassigned.tableAt hbase⟩

namespace RoundTripWitness

def ascii (text : List Char) : List UInt8 :=
  text.map fun c => UInt8.ofNat c.toNat

def reference (text : List Char) : Value :=
  ⟨.columnReference, ascii text, by decide⟩

def literal (text : List Char) : Value :=
  ⟨.stringLiteral, ascii text, by decide⟩

def source : Keyword := ⟨.optionalSource, some (reference ['^', 'T'])⟩

def delim : Keyword := ⟨.optionalDelim, some (literal ['|'])⟩

def piece : Keyword := ⟨.optionalPiece, some (literal ['1'])⟩

def columnType (w : Bool) : DataType :=
  if w then .characterStringType else .integerType

/-- `CREATE TABLE t (id INTEGER PRIMARY KEY)`, or with a column of VARCHAR. -/
def table (w : Bool) : Table where
  name := reference ['T']
  source := [source, delim]
  columns := [⟨reference ['I', 'D'], columnType w, [⟨.primaryKey, none⟩, ⟨.noKeyword, none⟩, piece],
    ⟨piece, by simp, rfl⟩⟩]
  delim := [delim, source]

/-- A value statement at an address, with its string. -/
def valueFields (a : ℕ) (v : Value) : List (ℕ × ℕ × ℕ) :=
  [(4, a, 4), (8, a + 24, a + 32), (4, a + 32, v.type.code), (8, a + 48, a + 56)] ++
    v.text.zipIdx.map fun c => (1, a + 56 + c.2, c.1.toNat)

/-- The table in memory: the statement is at 100, the lists of its keywords
from 1000 and 1100 on are one. -/
def fields (w : Bool) : List (ℕ × ℕ × ℕ) :=
  [(4, 100, 0), (8, 124, 200), (8, 200, 300), (8, 208, 400), (8, 216, 500),
    (8, 224, 600)] ++ valueFields 300 (reference ['T']) ++
  [(4, 400, 14), (8, 424, 1000), (4, 600, 14), (8, 624, 1100),
    (4, 1000, 1), (8, 1008, 1200), (8, 1016, 1100), (8, 1024, 1100),
    (4, 1100, 5), (8, 1108, 1300), (8, 1116, 1000), (8, 1124, 1000)] ++
  valueFields 1200 (reference ['^', 'T']) ++
  valueFields 1300 (literal ['|']) ++
  [(4, 500, 9), (8, 524, 700), (8, 700, 800), (4, 708, (columnType w).code), (8, 724, 900),
    (8, 732, 700), (8, 740, 700)] ++
  valueFields 800 (reference ['I', 'D']) ++
  [(4, 900, 14), (8, 924, 1400), (4, 1400, 19), (8, 1416, 1500), (8, 1424, 1600), (4, 1500, 0),
    (8, 1516, 1600), (8, 1524, 1400), (4, 1600, 9), (8, 1608, 1700), (8, 1616, 1400),
    (8, 1624, 1500)] ++
  valueFields 1700 (literal ['1'])

def image (w : Bool) : Memory :=
  (fields w).foldl (fun mem field => store mem field.1 field.2.1 field.2.2) fun _ => 0

/-- Everything is below 2000. -/
def region : Set ℕ := { b | b < 2000 }

theorem below {low high : ℕ} (hhigh : high ≤ 2000) : Set.Ico low high ⊆ region :=
  fun _ hb => Nat.lt_of_lt_of_le hb.2 hhigh

variable {w : Bool}

/-- Fields that lie apart read back after they are stored one after the other. -/
theorem load_foldl_store {mem : Memory} {fields : List (ℕ × ℕ × ℕ)}
    (hapart : fields.Pairwise fun x y => x.2.1 + x.1 ≤ y.2.1 ∨ y.2.1 + y.1 ≤ x.2.1)
    {x : ℕ × ℕ × ℕ} (hx : x ∈ fields) :
    load (fields.foldl (fun mem y => store mem y.1 y.2.1 y.2.2) mem) x.1 x.2.1 =
      x.2.2 % 256 ^ x.1 := by
  induction fields using List.reverseRecOn with
  | nil => cases hx
  | append_singleton fields last ih =>
    obtain ⟨hinit, -, hlast⟩ := List.pairwise_append.mp hapart
    rw [List.foldl_append, List.foldl_cons, List.foldl_nil]
    rcases List.mem_append.mp hx with hx | hx
    · rw [load_store_of_disjoint (hlast x hx last (by simp))]
      exact ih hinit hx
    · cases List.mem_singleton.mp hx
      exact load_store ..

/-- The fields lie apart, so that each of them reads back. -/
theorem load_image {width a value : ℕ} (hfield : (width, a, value) ∈ fields w) :
    load (image w) width a = value := by
  have hapart : (fields w).Pairwise fun x y => x.2.1 + x.1 ≤ y.2.1 ∨ y.2.1 + y.1 ≤ x.2.1 := by
    cases w <;> decide +kernel
  have hfits : ∀ x ∈ fields w, x.2.2 % 256 ^ x.1 = x.2.2 := by cases w <;> decide +kernel
  exact (load_foldl_store hapart hfield).trans (hfits _ hfield)

def values : List (ℕ × Value) :=
  [(300, reference ['T']), (800, reference ['I', 'D']), (1200, reference ['^', 'T']),
    (1300, literal ['|']), (1700, literal ['1'])]

theorem valueAt {a : ℕ} {v : Value} (hvalue : (a, v) ∈ values) : ValueAt (image w) region a v := by
  have hall : ∀ x ∈ values, (x.1 ≠ 0 ∧ x.1 + 57 + x.2.text.length ≤ 2000) ∧
      (∀ field ∈ valueFields x.1 x.2, field ∈ fields w) ∧
      StringAt (image w) (x.1 + 56) x.2.text := by
    cases w <;> decide +kernel
  obtain ⟨⟨ha, (hhigh : a + 57 + v.text.length ≤ 2000)⟩, hfields, htext⟩ := hall _ hvalue
  have hload {width b value : ℕ} (hfield : (width, b, value) ∈ valueFields a v) :
      load (image w) width b = value := load_image (hfields _ hfield)
  refine ⟨ha, below (by omega), below (by omega), hload (.head _), ?_⟩
  rw [hload (by simp [valueFields] : (8, a + 24, a + 32) ∈ valueFields a v)]
  refine ⟨by omega, ?_⟩
  rw [ValuePayload, hload (by simp [valueFields] : (8, a + 32 + 16, a + 56) ∈ valueFields a v)]
  exact ⟨below (by omega), below (by omega), hload (by simp [valueFields]), below (by omega), htext⟩

theorem keywordAt {a target : ℕ} {keyword : OptionalKeyword} {v : Value} (hhigh : a + 16 ≤ 2000)
    (hfields : (4, a, keyword.code) ∈ fields w ∧ (8, a + 8, target) ∈ fields w)
    (hvalue : (target, v) ∈ values) : KeywordAt (image w) region a ⟨keyword, some v⟩ := by
  refine ⟨below hhigh, load_image hfields.1, ?_⟩
  rw [load_image hfields.2]
  exact valueAt hvalue

theorem sourceAt : KeywordAt (image w) region 1000 source :=
  keywordAt (by decide) (by cases w <;> decide) (by simp [values] : (1200, _) ∈ _)

theorem delimAt : KeywordAt (image w) region 1100 delim :=
  keywordAt (by decide) (by cases w <;> decide) (by simp [values] : (1300, _) ∈ _)

theorem pieceAt : KeywordAt (image w) region 1600 piece :=
  keywordAt (by decide) (by cases w <;> decide) (by simp [values] : (1700, _) ∈ _)

theorem plainAt {a : ℕ} {keyword : OptionalKeyword}
    (hkeyword : (a, keyword) ∈ [(1400, .primaryKey), (1500, .noKeyword)]) :
    keywordLayout.node (image w) region a ⟨keyword, none⟩ := by
  have hall : ∀ x ∈ [(1400, OptionalKeyword.primaryKey), (1500, .noKeyword)], x.1 + 16 ≤ 2000 ∧
      load (image w) 4 x.1 = x.2.code ∧ load (image w) 8 (x.1 + 8) = 0 := by
    cases w <;> decide +kernel
  exact ⟨below (hall _ hkeyword).1, (hall _ hkeyword).2⟩

/-- The links from one element to the next. -/
theorem ring_step {α : Type*} {L : Layout α} {start cur : ℕ} (next : ℕ) {x : α} {rest : List α}
    (hnode : L.node (image w) region cur x)
    (hlinks : (8, cur + L.front, next) ∈ fields w ∧ (8, next + L.front + 8, cur) ∈ fields w)
    (hbelow : cur + L.front + 8 ≤ 2000 ∧ next + L.front + 16 ≤ 2000)
    (hstart : rest ≠ [] → next ≠ start) (hrest : L.RingFrom (image w) region start next rest) :
    L.RingFrom (image w) region start cur (x :: rest) := by
  rw [Layout.RingFrom, load_image hlinks.1]
  exact ⟨hnode, below hbelow.1, hstart, below hbelow.2, load_image hlinks.2, hrest⟩

theorem keywordsAt {a start : ℕ} {ks : List Keyword} (ha : a ≠ 0) (hhigh : a + 32 ≤ 2000)
    (hstart : start ≠ 0) (hfields : (4, a, 14) ∈ fields w ∧ (8, a + 24, start) ∈ fields w)
    (hring : keywordLayout.Ring (image w) region start ks) : KeywordsAt (image w) region a ks := by
  refine ⟨ha, below (by omega), below (by omega), load_image hfields.1, ?_⟩
  rw [load_image hfields.2]
  exact ⟨hstart, hring⟩

theorem columnKeywordsAt : KeywordsAt (image w) region 900
    [⟨.primaryKey, none⟩, ⟨.noKeyword, none⟩, piece] := by
  apply keywordsAt (by decide) (by decide) (by decide : 1400 ≠ 0) (by cases w <;> decide)
  refine ⟨by simp, ?_⟩
  apply ring_step 1500 (plainAt (by simp)) (by cases w <;> decide) (by decide) (fun _ => by decide)
  apply ring_step 1600 (plainAt (by simp)) (by cases w <;> decide) (by decide) (fun _ => by decide)
  exact ring_step 1400 pieceAt (by cases w <;> decide) (by decide) (fun h => absurd rfl h) rfl

theorem columnsAt : ColumnsAt (image w) region 500 (table w).columns := by
  refine ⟨by decide, below (by decide), below (by decide), load_image (by cases w <;> decide), ?_⟩
  rw [show load (image w) 8 (500 + 24) = 700 from load_image (by cases w <;> decide)]
  refine ⟨by decide, by simp [table], ?_⟩
  apply ring_step 700 _ (by cases w <;> decide) (by decide) (fun h => absurd rfl h) rfl
  refine ⟨below (by decide), below (by decide), ?_, load_image (by cases w <;> decide), ?_⟩
  · rw [show load (image w) 8 700 = 800 from load_image (by cases w <;> decide)]
    exact valueAt (by simp [values])
  · rw [show load (image w) 8 (700 + 24) = 900 from load_image (by cases w <;> decide)]
    exact columnKeywordsAt

theorem tableAt : TableAt (image w) region 100 (table w) := by
  refine ⟨by decide, below (by decide), below (by decide), load_image (by cases w <;> decide), ?_⟩
  rw [show load (image w) 8 (100 + 24) = 200 from load_image (by cases w <;> decide), TablePayload,
    show load (image w) 8 200 = 300 from load_image (by cases w <;> decide),
    show load (image w) 8 (200 + 8) = 400 from load_image (by cases w <;> decide),
    show load (image w) 8 (200 + 16) = 500 from load_image (by cases w <;> decide),
    show load (image w) 8 (200 + 24) = 600 from load_image (by cases w <;> decide)]
  refine ⟨by decide, below (by decide), valueAt (by simp [values, table]), ?_, columnsAt, ?_⟩
  · apply keywordsAt (by decide) (by decide) (by decide : 1000 ≠ 0) (by cases w <;> decide)
    refine ⟨by simp [table], ?_⟩
    apply ring_step 1100 sourceAt (by cases w <;> decide) (by decide) (fun _ => by decide)
    exact ring_step 1000 delimAt (by cases w <;> decide) (by decide) (fun h => absurd rfl h) rfl
  · apply keywordsAt (by decide) (by decide) (by decide : 1100 ≠ 0) (by cases w <;> decide)
    refine ⟨by simp [table], ?_⟩
    apply ring_step 1000 delimAt (by cases w <;> decide) (by decide) (fun _ => by decide)
    exact ring_step 1100 sourceAt (by cases w <;> decide) (by decide) (fun h => absurd rfl h) rfl

end RoundTripWitness

open RoundTripWitness in
theorem small_table_is_restored : ∃ length out written,
      compressStatement (fun _ => 2000) 1000 100 (image false) =
      some (length, out, length, written) ∧
      ∀ (mem' : Memory) (base bufferLength free : ℕ), base ≠ 0 →
      length ≤ bufferLength → bufferLength < 2 ^ 31 → base + bufferLength ≤ 2 ^ 64 →
      base + bufferLength ≤ free →
      (∀ i < length, mem' (base + i) = written (out + i)) → ∃ restored heap,
      decompressStatement 1000 base bufferLength mem' = some restored ∧
      assignTableToColumns 1000 base ⟨restored, free⟩ = some heap ∧
      TableAt heap.mem (Set.Ico base (base + length)) base (table false) :=
  compressed_table_is_restored (table false) (image false) region 100 (fun _ => 2000) 1000
    tableAt (by decide) (by decide) (fun b hb => Or.inl hb) (by decide) (by decide)

end TableStatement

end Octo
