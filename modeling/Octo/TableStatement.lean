/-
Table definitions in memory.  A statement is a tag and a pointer to what the
tag says; columns and keywords are circular lists.  The sizes and offsets are
those of the structs of the source, with pointers of eight bytes:

  SqlStatement        type 0, loc 4, v 24                          size 32
  SqlTable            tableName 0, source 8, columns 16, delim 24,
                      next 32, prev 40                             size 48
  SqlValue            type 0, coerced_type 4, data_type 8, v 16    size 24
  SqlColumn           columnName 0, type 8, table 16, keywords 24,
                      next 32, prev 40                             size 48
  SqlOptionalKeyword  keyword 0, v 8, next 16, prev 24             size 32
-/
import Octo.RelativeList

namespace Octo

namespace TableStatement

open ByteMemory RelativeList

inductive StatementType where
  | tableStatement
  | selectStatement
  | insertStatement
  | dropStatement
  | valueStatement
  | functionCallStatement
  | binaryStatement
  | unaryStatement
  | columnListStatement
  | columnStatement
  | joinStatement
  | dataTypeStatement
  | constraintStatement
  | constraintTypeStatement
  | keywordStatement
  | columnListAliasStatement
  | columnAliasStatement
  | tableAliasStatement
  | joinTypeStatement
  | setOperationStatement
  | beginStatement
  | commitStatement
  | casStatement
  | casBranchStatement
  | setStatement
  | showStatement
  | noDataStatement
  | invalidStatement
  deriving DecidableEq, Repr

inductive ValueType where
  | unknown
  | numberLiteral
  | stringLiteral
  | dateTime
  | columnReference
  | calculatedValue
  | temporaryTableType
  | functionName
  | booleanValue
  | parameterValue
  | nulValue
  | coerceType
  | invalid
  deriving DecidableEq, Repr

inductive DataType where
  | unknown
  | characterStringType
  | integerType
  | dateTimeType
  | intervalType
  deriving DecidableEq, Repr

inductive OptionalKeyword where
  | noKeyword
  | optionalSource
  | optionalCurse
  | optionalEnd
  | optionalStart
  | optionalDelim
  | optionalExtract
  | optionalCascade
  | optionalRestrict
  | optionalPiece
  | optionalKeyNum
  | optionalAdvance
  | optionalLimit
  | optionalDistinct
  | optionalPopulateIndex
  | optionalPartOfExpansion
  | unknownConstraintType
  | notNull
  | uniqueConstraint
  | primaryKey
  | references
  | checkConstraint
  | maxLength
  deriving DecidableEq, Repr

/-- The number of a tag, as C counts them. -/
def StatementType.code (type : StatementType) : ℕ := type.ctorIdx

def ValueType.code (type : ValueType) : ℕ := type.ctorIdx

def DataType.code (type : DataType) : ℕ := type.ctorIdx

def OptionalKeyword.code (keyword : OptionalKeyword) : ℕ := keyword.ctorIdx

def StatementType.ofCode (code : ℕ) : Option StatementType :=
  [.tableStatement, .selectStatement, .insertStatement, .dropStatement, .valueStatement,
    .functionCallStatement, .binaryStatement, .unaryStatement, .columnListStatement,
    .columnStatement, .joinStatement, .dataTypeStatement, .constraintStatement,
    .constraintTypeStatement, .keywordStatement, .columnListAliasStatement, .columnAliasStatement,
    .tableAliasStatement, .joinTypeStatement, .setOperationStatement, .beginStatement,
    .commitStatement, .casStatement, .casBranchStatement, .setStatement, .showStatement,
    .noDataStatement, .invalidStatement][code]?

@[simp] theorem StatementType.ofCode_code (type : StatementType) :
    ofCode type.code = some type := by
  cases type <;> rfl

theorem ValueType.code_ne {type : ValueType} (htype : type ≠ .calculatedValue) :
    type.code ≠ ValueType.calculatedValue.code := by
  cases type <;> first | decide | exact absurd rfl htype

structure Value where
  type : ValueType
  text : List UInt8
  notCalculated : type ≠ .calculatedValue

/-- A keyword of a column or a table, with its value if it has one. -/
structure Keyword where
  keyword : OptionalKeyword
  value : Option Value

/-- `assign_table_to_columns` gives every column a PIECE. -/
structure Column where
  name : Value
  type : DataType
  keywords : List Keyword
  hasPiece : ∃ k ∈ keywords, k.keyword = .optionalPiece

/-- The source and the delimiter are the list of the keywords of the table,
from the one or the other on. -/
structure Table where
  name : Value
  source : List Keyword
  columns : List Column
  delim : List Keyword

section Absolute

variable {mem mem' : Memory} {region region' : Set ℕ}

/-- A statement, with all that is read of it in a region. -/
def StatementAt (mem : Memory) (region : Set ℕ) (stmt : ℕ)
    (type : StatementType) (payload : ℕ → Prop) : Prop :=
  stmt ≠ 0 ∧ Set.Ico stmt (stmt + 4) ⊆ region ∧ Set.Ico (stmt + 24) (stmt + 32) ⊆ region ∧
    load mem 4 stmt = type.code ∧ load mem 8 (stmt + 24) ≠ 0 ∧ payload (load mem 8 (stmt + 24))

variable {stmt : ℕ}

theorem StatementAt.congr {type : StatementType} {payload payload' : ℕ → Prop}
    (hstmt : StatementAt mem region stmt type payload) (hsame : Set.EqOn mem mem' region)
    (hregion : region ⊆ region') (hpayload : ∀ p, payload p → payload' p) :
    StatementAt mem' region' stmt type payload' := by
  obtain ⟨hne, htypeIn, hptrIn, htype, hptr, hp⟩ := hstmt
  have htypeEq := load_congr (hsame.mono htypeIn)
  have hptrEq : load mem 8 (stmt + 24) = load mem' 8 (stmt + 24) :=
    load_congr (hsame.mono hptrIn)
  rw [hptrEq] at hptr hp
  exact ⟨hne, htypeIn.trans hregion, hptrIn.trans hregion, htypeEq ▸ htype, hptr, hpayload _ hp⟩

def ValuePayload (mem : Memory) (region : Set ℕ) (v : Value) (value : ℕ) :
    Prop :=
  Set.Ico value (value + 4) ⊆ region ∧ Set.Ico (value + 16) (value + 24) ⊆ region ∧
    load mem 4 value = v.type.code ∧ Set.Ico (load mem 8 (value + 16))
    (load mem 8 (value + 16) + v.text.length + 1) ⊆ region ∧
    StringAt mem (load mem 8 (value + 16)) v.text

variable {v : Value}

theorem ValuePayload.congr {value : ℕ} (hvalue : ValuePayload mem region v value)
    (hsame : Set.EqOn mem mem' region) (hregion : region ⊆ region') :
    ValuePayload mem' region' v value := by
  obtain ⟨htypeIn, hptrIn, htype, htextIn, htext⟩ := hvalue
  have htypeEq := load_congr (hsame.mono htypeIn)
  have hptrEq : load mem 8 (value + 16) = load mem' 8 (value + 16) :=
    load_congr (hsame.mono hptrIn)
  have htext' := htext.congr (hsame.mono htextIn)
  rw [hptrEq] at htextIn htext'
  exact ⟨htypeIn.trans hregion, hptrIn.trans hregion, htypeEq ▸ htype,
    htextIn.trans hregion, htext'⟩

def ValueAt (mem : Memory) (region : Set ℕ) (stmt : ℕ) (v : Value) : Prop :=
  StatementAt mem region stmt .valueStatement (ValuePayload mem region v)

theorem ValueAt.congr (hvalue : ValueAt mem region stmt v)
    (hsame : Set.EqOn mem mem' region) (hregion : region ⊆ region') : ValueAt mem' region' stmt v :=
  StatementAt.congr hvalue hsame hregion fun _ hpayload => hpayload.congr hsame hregion

/-- A pointer to a value, or null. -/
def OptionalValueAt (mem : Memory) (region : Set ℕ) (stmt : ℕ) : Option Value → Prop
  | none => stmt = 0
  | some v => ValueAt mem region stmt v

theorem OptionalValueAt.congr {v : Option Value}
    (hvalue : OptionalValueAt mem region stmt v) (hsame : Set.EqOn mem mem' region)
    (hregion : region ⊆ region') : OptionalValueAt mem' region' stmt v := by
  cases v with
  | none => exact hvalue
  | some v => exact ValueAt.congr hvalue hsame hregion

def KeywordAt (mem : Memory) (region : Set ℕ) (a : ℕ) (k : Keyword) : Prop :=
  Set.Ico a (a + 16) ⊆ region ∧ load mem 4 a = k.keyword.code ∧
    OptionalValueAt mem region (load mem 8 (a + 8)) k.value

theorem KeywordAt.congr {a : ℕ} {k : Keyword} (hk : KeywordAt mem region a k)
    (hsame : Set.EqOn mem mem' region) (hregion : region ⊆ region') :
    KeywordAt mem' region' a k := by
  obtain ⟨hin, hcode, hvalue⟩ := hk
  have hcodeEq : load mem 4 a = load mem' 4 a := by
    apply load_congr
    intro b hb
    exact hsame (hin ⟨hb.1, by have := hb.2; omega⟩)
  have hptrEq : load mem 8 (a + 8) = load mem' 8 (a + 8) := by
    apply load_congr
    intro b hb
    exact hsame (hin ⟨by have := hb.1; omega, by have := hb.2; omega⟩)
  have hvalue' := hvalue.congr hsame hregion
  rw [hptrEq] at hvalue'
  exact ⟨hin.trans hregion, hcodeEq ▸ hcode, hvalue'⟩

end Absolute

section Packed

variable {mem mem' : Memory}

/-- A written statement; what it points to follows. -/
def PackedStatement (mem : Memory) (a : ℕ) (type : StatementType) : Prop :=
  load mem 4 a = type.code ∧ Relative mem (a + 24) (a + 32)

variable {a base : ℕ} {type : StatementType}

theorem PackedStatement.congr (hpacked : PackedStatement mem a type)
    (hsame : Set.EqOn mem mem' (Set.Ico a (a + 32))) : PackedStatement mem' a type := by
  have hcode : load mem 4 a = load mem' 4 a := by
    apply load_congr
    intro b hb
    exact hsame ⟨hb.1, by have := hb.2; omega⟩
  refine ⟨hcode ▸ hpacked.1, hpacked.2.congr ?_⟩
  intro b hb
  exact hsame ⟨by have := hb.1; omega, by have := hb.2; omega⟩

theorem packedStatement_view : PackedStatement (view mem base) a type ↔
      PackedStatement mem (base + a) type := by
  simp [PackedStatement, load_view, relative_view, Nat.add_assoc]

def Value.size (v : Value) : ℕ := 32 + 24 + v.text.length + 1

/-- A written value, without its statement. -/
def PackedText (mem : Memory) (a : ℕ) (v : Value) : Prop :=
  load mem 4 a = v.type.code ∧ Relative mem (a + 16) (a + 24) ∧ StringAt mem (a + 24) v.text

def PackedValue (mem : Memory) (a : ℕ) (v : Value) : Prop :=
  PackedStatement mem a .valueStatement ∧ PackedText mem (a + 32) v

variable {v : Value}

theorem PackedValue.congr (hpacked : PackedValue mem a v)
    (hsame : Set.EqOn mem mem' (Set.Ico a (a + v.size))) : PackedValue mem' a v := by
  obtain ⟨hstmt, htype, hptr, htext⟩ := hpacked
  simp only [Value.size] at hsame
  refine ⟨hstmt.congr ?_, ?_, hptr.congr ?_, htext.congr ?_⟩
  · exact hsame.mono (Set.Ico_subset_Ico (by omega) (by omega))
  · rw [← htype]
    exact (load_congr (hsame.mono (Set.Ico_subset_Ico (by omega) (by omega)))).symm
  all_goals exact hsame.mono (Set.Ico_subset_Ico (by omega) (by omega))

theorem packedValue_view : PackedValue (view mem base) a v ↔ PackedValue mem (base + a) v := by
  simp only [PackedValue, PackedText, packedStatement_view, load_view,
    relative_view, stringAt_view, Nat.add_assoc]

def Keyword.width (k : Keyword) : ℕ := (k.value.map Value.size).getD 0

/-- A written pointer to a value, or null. -/
def PackedOptional (mem : Memory) (field a : ℕ) : Option Value → Prop
  | none => load mem 8 field = 0
  | some v => Relative mem field a ∧ PackedValue mem a v

def PackedKeyword (mem : Memory) (a : ℕ) (k : Keyword) : Prop :=
  load mem 4 a = k.keyword.code ∧ PackedOptional mem (a + 8) (a + 32) k.value

/-- The bytes of a written keyword, without its links. -/
def keywordFootprint (a : ℕ) (k : Keyword) : Set ℕ :=
  Set.Ico a (a + 16) ∪ Set.Ico (a + 32) (a + 32 + k.width)

variable {k : Keyword}

theorem PackedKeyword.congr (hsame : Set.EqOn mem mem' (keywordFootprint a k))
    (hpacked : PackedKeyword mem a k) : PackedKeyword mem' a k := by
  obtain ⟨hcode, hvalue⟩ := hpacked
  have hfront := hsame.mono Set.subset_union_left
  have hback := hsame.mono Set.subset_union_right
  have hptr : Set.EqOn mem mem' (Set.Ico (a + 8) (a + 8 + 8)) :=
    hfront.mono (Set.Ico_subset_Ico (by omega) (by omega))
  constructor
  · rw [← hcode]
    exact (load_congr (hfront.mono (Set.Ico_subset_Ico (by omega) (by omega)))).symm
  · cases hk : k.value with
    | none =>
      rw [hk] at hvalue
      rw [PackedOptional, ← load_congr hptr]
      exact hvalue
    | some v =>
      rw [hk] at hvalue
      simp only [Keyword.width, hk, Option.map_some, Option.getD_some] at hback
      exact ⟨hvalue.1.congr hptr, hvalue.2.congr hback⟩

theorem packedKeyword_view :
    PackedKeyword (view mem base) a k ↔ PackedKeyword mem (base + a) k := by
  cases hk : k.value with
  | none => simp [PackedKeyword, hk, PackedOptional, load_view, Nat.add_assoc]
  | some v => simp only [PackedKeyword, hk, PackedOptional, load_view,
      relative_view, packedValue_view, Nat.add_assoc]

def keywordLayout : Layout Keyword where
  front := 16
  width := Keyword.width
  node := KeywordAt
  packed := PackedKeyword
  footprint := keywordFootprint
  node_congr := fun hsame hregion hnode => hnode.congr hsame hregion
  footprint_cases := by
    rintro a b k (hb | hb)
    · exact Or.inl hb
    · exact Or.inr hb
  packed_congr := PackedKeyword.congr
  packed_view := packedKeyword_view

end Packed

section Columns

variable {mem mem' : Memory} {region region' : Set ℕ}

def KeywordsAt (mem : Memory) (region : Set ℕ) (stmt : ℕ) (ks : List Keyword) : Prop :=
  StatementAt mem region stmt .keywordStatement fun keyword =>
    keywordLayout.Ring mem region keyword ks

variable {ks : List Keyword}

theorem KeywordsAt.congr {stmt : ℕ} (hks : KeywordsAt mem region stmt ks)
    (hsame : Set.EqOn mem mem' region) (hregion : region ⊆ region') :
    KeywordsAt mem' region' stmt ks := by
  apply StatementAt.congr hks hsame hregion
  rintro keyword ⟨hne, hring⟩
  exact ⟨hne, hring.congr hsame hregion⟩

def keywordsSize (ks : List Keyword) : ℕ := 32 + keywordLayout.total ks

def PackedKeywords (mem : Memory) (a : ℕ) (ks : List Keyword) : Prop :=
  PackedStatement mem a .keywordStatement ∧ ks ≠ [] ∧ keywordLayout.PackedFrom mem (a + 32) ks

variable {a : ℕ}

theorem PackedKeywords.congr (hpacked : PackedKeywords mem a ks)
    (hsame : Set.EqOn mem mem' (Set.Ico a (a + keywordsSize ks))) : PackedKeywords mem' a ks := by
  obtain ⟨hstmt, hne, hks⟩ := hpacked
  simp only [keywordsSize] at hsame
  refine ⟨hstmt.congr ?_, hne, hks.congr ?_⟩
  · exact hsame.mono (Set.Ico_subset_Ico (by omega) (by omega))
  · intro b hlow hhigh _
    exact hsame ⟨by omega, by omega⟩

def ColumnAt (mem : Memory) (region : Set ℕ) (a : ℕ) (c : Column) : Prop :=
  Set.Ico a (a + 16) ⊆ region ∧ Set.Ico (a + 24) (a + 32) ⊆ region ∧
    ValueAt mem region (load mem 8 a) c.name ∧ load mem 4 (a + 8) = c.type.code ∧
    KeywordsAt mem region (load mem 8 (a + 24)) c.keywords

variable {c : Column}

theorem ColumnAt.congr (hc : ColumnAt mem region a c) (hsame : Set.EqOn mem mem' region)
    (hregion : region ⊆ region') : ColumnAt mem' region' a c := by
  obtain ⟨hfront, hptrIn, hname, htype, hks⟩ := hc
  have hnameEq : load mem 8 a = load mem' 8 a :=
    load_congr (hsame.mono ((Set.Ico_subset_Ico (by omega) (by omega)).trans hfront))
  have htypeEq : load mem 4 (a + 8) = load mem' 4 (a + 8) :=
    load_congr (hsame.mono ((Set.Ico_subset_Ico (by omega) (by omega)).trans hfront))
  have hptrEq : load mem 8 (a + 24) = load mem' 8 (a + 24) :=
    load_congr (hsame.mono hptrIn)
  have hname' := hname.congr hsame hregion
  have hks' := hks.congr hsame hregion
  rw [hnameEq] at hname'
  rw [hptrEq] at hks'
  exact ⟨hfront.trans hregion, hptrIn.trans hregion, hname', htypeEq ▸ htype, hks'⟩

def Column.width (c : Column) : ℕ := c.name.size + keywordsSize c.keywords

def PackedColumn (mem : Memory) (a : ℕ) (c : Column) : Prop :=
  Relative mem a (a + 48) ∧ PackedValue mem (a + 48) c.name ∧ load mem 4 (a + 8) = c.type.code ∧
    Relative mem (a + 24) (a + 48 + c.name.size) ∧
    PackedKeywords mem (a + 48 + c.name.size) c.keywords

/-- The bytes of a written column, without its links and its table. -/
def columnFootprint (a : ℕ) (c : Column) : Set ℕ :=
  Set.Ico a (a + 16) ∪ Set.Ico (a + 24) (a + 32) ∪ Set.Ico (a + 48) (a + 48 + c.width)

theorem PackedColumn.congr (hsame : Set.EqOn mem mem' (columnFootprint a c))
    (hpacked : PackedColumn mem a c) : PackedColumn mem' a c := by
  obtain ⟨hnamePtr, hname, htype, hptr, hks⟩ := hpacked
  have hfront := hsame.mono (Set.subset_union_left.trans Set.subset_union_left)
  have hkeywords := hsame.mono (Set.subset_union_right.trans Set.subset_union_left)
  have hback := hsame.mono Set.subset_union_right
  simp only [Column.width] at hback
  refine ⟨hnamePtr.congr ?_, hname.congr ?_, ?_, hptr.congr hkeywords, hks.congr ?_⟩
  · exact hfront.mono (Set.Ico_subset_Ico (by omega) (by omega))
  · exact hback.mono (Set.Ico_subset_Ico (by omega) (by omega))
  · rw [← htype]
    exact (load_congr (hfront.mono (Set.Ico_subset_Ico (by omega) (by omega)))).symm
  · exact hback.mono (Set.Ico_subset_Ico (by omega) (by omega))

theorem packedColumn_view {base a : ℕ} :
    PackedColumn (view mem base) a c ↔ PackedColumn mem (base + a) c := by
  simp only [PackedColumn, PackedKeywords, relative_view, packedValue_view,
    load_view, packedStatement_view, Layout.packedFrom_view, Nat.add_assoc]

def columnLayout : Layout Column where
  front := 32
  width := Column.width
  node := ColumnAt
  packed := PackedColumn
  footprint := columnFootprint
  node_congr := fun hsame hregion hnode => hnode.congr hsame hregion
  footprint_cases := by
    rintro a b c ((hb | hb) | hb)
    · exact Or.inl ⟨hb.1, by have := hb.2; omega⟩
    · exact Or.inl ⟨by have := hb.1; omega, hb.2⟩
    · exact Or.inr hb
  packed_congr := PackedColumn.congr
  packed_view := packedColumn_view

end Columns

section Tables

variable {mem mem' : Memory} {region region' : Set ℕ}

def ColumnsAt (mem : Memory) (region : Set ℕ) (stmt : ℕ) (cs : List Column) :
    Prop :=
  StatementAt mem region stmt .columnStatement fun column =>
    columnLayout.Ring mem region column cs

variable {cs : List Column}

theorem ColumnsAt.congr {stmt : ℕ} (hcs : ColumnsAt mem region stmt cs)
    (hsame : Set.EqOn mem mem' region) (hregion : region ⊆ region') :
    ColumnsAt mem' region' stmt cs := by
  apply StatementAt.congr hcs hsame hregion
  rintro column ⟨hne, hring⟩
  exact ⟨hne, hring.congr hsame hregion⟩

def columnsSize (cs : List Column) : ℕ := 32 + columnLayout.total cs

def PackedColumns (mem : Memory) (a : ℕ) (cs : List Column) : Prop :=
  PackedStatement mem a .columnStatement ∧ cs ≠ [] ∧ columnLayout.PackedFrom mem (a + 32) cs

theorem PackedColumns.congr {a : ℕ} (hpacked : PackedColumns mem a cs)
    (hsame : Set.EqOn mem mem' (Set.Ico a (a + columnsSize cs))) : PackedColumns mem' a cs := by
  obtain ⟨hstmt, hne, hcs⟩ := hpacked
  simp only [columnsSize] at hsame
  refine ⟨hstmt.congr ?_, hne, hcs.congr ?_⟩
  · exact hsame.mono (Set.Ico_subset_Ico (by omega) (by omega))
  · intro b hlow hhigh _
    exact hsame ⟨by omega, by omega⟩

def TablePayload (mem : Memory) (region : Set ℕ) (t : Table) (table : ℕ) :
    Prop :=
  Set.Ico table (table + 32) ⊆ region ∧ ValueAt mem region (load mem 8 table) t.name ∧
    KeywordsAt mem region (load mem 8 (table + 8)) t.source ∧
    ColumnsAt mem region (load mem 8 (table + 16)) t.columns ∧
    KeywordsAt mem region (load mem 8 (table + 24)) t.delim

variable {t : Table}

theorem TablePayload.congr {table : ℕ} (htable : TablePayload mem region t table)
    (hsame : Set.EqOn mem mem' region) (hregion : region ⊆ region') :
    TablePayload mem' region' t table := by
  obtain ⟨hin, hname, hsource, hcolumns, hdelim⟩ := htable
  have hload : ∀ i, i + 8 ≤ 32 → load mem 8 (table + i) = load mem' 8 (table + i) := by
    intro i hi
    apply load_congr
    intro b hb
    exact hsame (hin ⟨by have := hb.1; omega, by have := hb.2; omega⟩)
  have hname' := hname.congr hsame hregion
  have hsource' := hsource.congr hsame hregion
  have hcolumns' := hcolumns.congr hsame hregion
  have hdelim' := hdelim.congr hsame hregion
  rw [hload 8 (by omega)] at hsource'
  rw [hload 16 (by omega)] at hcolumns'
  rw [hload 24 (by omega)] at hdelim'
  have hload0 : load mem 8 table = load mem' 8 table := hload 0 (by omega)
  rw [hload0] at hname'
  exact ⟨hin.trans hregion, hname', hsource', hcolumns', hdelim'⟩

def TableAt (mem : Memory) (region : Set ℕ) (stmt : ℕ) (t : Table) : Prop :=
  StatementAt mem region stmt .tableStatement (TablePayload mem region t)

def Table.size (t : Table) : ℕ :=
  32 + 48 + t.name.size + keywordsSize t.source + columnsSize t.columns + keywordsSize t.delim

theorem Table.size_eq (t : Table) : t.size = 32 + (48 + t.name.size + keywordsSize t.source +
    columnsSize t.columns + keywordsSize t.delim) := by
  simp only [Table.size]
  omega

/-- A written table, without its statement. -/
def PackedFields (mem : Memory) (a : ℕ) (t : Table) : Prop :=
  (Relative mem a (a + 48) ∧ PackedValue mem (a + 48) t.name) ∧
    (Relative mem (a + 8) (a + 48 + t.name.size) ∧
    PackedKeywords mem (a + 48 + t.name.size) t.source) ∧
    (Relative mem (a + 16) (a + 48 + t.name.size + keywordsSize t.source) ∧
    PackedColumns mem (a + 48 + t.name.size + keywordsSize t.source) t.columns) ∧
    Relative mem (a + 24) (a + 48 + t.name.size + keywordsSize t.source + columnsSize t.columns) ∧
    PackedKeywords mem (a + 48 + t.name.size + keywordsSize t.source +
    columnsSize t.columns) t.delim

/-- The bytes that `compress_statement` writes for a table. -/
def PackedTable (mem : Memory) (a : ℕ) (t : Table) : Prop :=
  PackedStatement mem a .tableStatement ∧ PackedFields mem (a + 32) t

/-- A written table can be anywhere. -/
theorem packedTable_view {base a : ℕ} :
    PackedTable (view mem base) a t ↔ PackedTable mem (base + a) t := by
  simp only [PackedTable, PackedFields, PackedKeywords, PackedColumns, relative_view,
    packedValue_view, packedStatement_view, Layout.packedFrom_view, Nat.add_assoc]

end Tables

end TableStatement

end Octo
