/-
Table definitions as bytes.  A buffer that starts with the bytes of a table
holds that table and no other, whatever follows and wherever the buffer is.
-/
import Octo.TableRoundTrip
import Mathlib.Data.List.GetD

namespace Octo

namespace TableStatement

open ByteMemory RelativeList

section Unique

variable {mem : Memory} {region region' : Set ℕ}

variable {a stmt : ℕ}

theorem StringAt.unique {first second : List UInt8}
    (hfirst : StringAt mem a first) (hsecond : StringAt mem a second) :
    first = second := by
  induction first generalizing a second with
  | nil =>
    cases second with
    | nil => rfl
    | cons c text => exact absurd (hsecond.2.1.symm.trans hfirst) hsecond.1
  | cons c text ih =>
    cases second with
    | nil => exact absurd (hfirst.2.1.symm.trans hsecond) hfirst.1
    | cons d other =>
      have hhead : c = d := hfirst.2.1.symm.trans hsecond.2.1
      rw [hhead, ih hfirst.2.2 hsecond.2.2]

theorem ValueType.code_inj {first second : ValueType}
    (hcode : first.code = second.code) : first = second := by
  cases first <;> cases second <;> first | rfl | exact absurd hcode (by decide)

theorem DataType.code_inj {first second : DataType}
    (hcode : first.code = second.code) : first = second := by
  cases first <;> cases second <;> first | rfl | exact absurd hcode (by decide)

theorem ValueAt.unique {first second : Value} (hfirst : ValueAt mem region stmt first)
    (hsecond : ValueAt mem region' stmt second) : first = second := by
  obtain ⟨_, _, _, _, _, _, _, htype, _, htext⟩ := hfirst
  obtain ⟨_, _, _, _, _, _, _, htype', _, htext'⟩ := hsecond
  have htypes := ValueType.code_inj (htype.symm.trans htype')
  have htexts := StringAt.unique htext htext'
  cases first
  cases second
  simp_all

theorem OptionalValueAt.unique {first second : Option Value}
    (hfirst : OptionalValueAt mem region stmt first)
    (hsecond : OptionalValueAt mem region' stmt second) : first = second := by
  cases first with
  | none =>
    cases second with
    | none => rfl
    | some w => exact absurd hfirst hsecond.1
  | some v =>
    cases second with
    | none => exact absurd hsecond hfirst.1
    | some w => rw [ValueAt.unique hfirst hsecond]

theorem KeywordAt.unique {first second : Keyword} (hfirst : KeywordAt mem region a first)
    (hsecond : KeywordAt mem region' a second) : first = second := by
  have hcode := OptionalKeyword.code_inj (hfirst.2.1.symm.trans hsecond.2.1)
  have hvalue := hfirst.2.2.unique hsecond.2.2
  cases first
  cases second
  simp_all

/-- A circular list is determined by its first element. -/
theorem ringFrom_unique {α : Type*} {L : Layout α}
    (hnode : ∀ {a x y}, L.node mem region a x → L.node mem region' a y → x = y)
    {start cur : ℕ} {first second : List α} (hne : first ≠ [])
    (hne' : second ≠ []) (hfirst : L.RingFrom mem region start cur first)
    (hsecond : L.RingFrom mem region' start cur second) : first = second := by
  induction first generalizing cur second with
  | nil => exact absurd rfl hne
  | cons x rest ih =>
    obtain ⟨y, rest', rfl⟩ := List.exists_cons_of_ne_nil hne'
    obtain ⟨hx, _, hnext, _, _, hrest⟩ := hfirst
    obtain ⟨hy, _, hnext', _, _, hrest'⟩ := hsecond
    rw [hnode hx hy]
    by_cases hempty : rest = []
    · by_cases hempty' : rest' = []
      · rw [hempty, hempty']
      · rw [hempty] at hrest
        exact absurd hrest (hnext' hempty')
    · by_cases hempty' : rest' = []
      · rw [hempty'] at hrest'
        exact absurd hrest' (hnext hempty)
      · rw [ih hempty hempty' hrest hrest']

theorem KeywordsAt.unique {first second : List Keyword} (hfirst : KeywordsAt mem region stmt first)
    (hsecond : KeywordsAt mem region' stmt second) : first = second := by
  obtain ⟨_, _, _, _, _, hne, hring⟩ := hfirst
  obtain ⟨_, _, _, _, _, hne', hring'⟩ := hsecond
  exact ringFrom_unique KeywordAt.unique hne hne' hring hring'

theorem ColumnAt.unique {first second : Column} (hfirst : ColumnAt mem region a first)
    (hsecond : ColumnAt mem region' a second) : first = second := by
  obtain ⟨_, _, hname, htype, hkeywords⟩ := hfirst
  obtain ⟨_, _, hname', htype', hkeywords'⟩ := hsecond
  have hnames := hname.unique hname'
  have htypes := DataType.code_inj (htype.symm.trans htype')
  have hlists := hkeywords.unique hkeywords'
  cases first
  cases second
  simp_all

/-- There is one table at a statement. -/
theorem TableAt.unique {first second : Table} (hfirst : TableAt mem region stmt first)
    (hsecond : TableAt mem region' stmt second) : first = second := by
  obtain ⟨_, _, _, _, _, _, hname, hsource, hcolumns, hdelim⟩ := hfirst
  obtain ⟨_, _, _, _, _, _, hname', hsource', hcolumns', hdelim'⟩ := hsecond
  have hnames := hname.unique hname'
  have hsources := hsource.unique hsource'
  have hdelims := hdelim.unique hdelim'
  obtain ⟨_, _, _, _, _, hne, hring⟩ := hcolumns
  obtain ⟨_, _, _, _, _, hne', hring'⟩ := hcolumns'
  have hlists := ringFrom_unique ColumnAt.unique hne hne' hring hring'
  cases first
  cases second
  simp_all

end Unique

def BufferAt (mem : Memory) (base : ℕ) (buffer : List UInt8) : Prop :=
  ∀ i < buffer.length, mem (base + i) = buffer.getD i 0

/-- Wherever the buffer is put, `decompress_statement` and
`assign_table_to_columns` make the table of it. -/
def Holds (buffer : List UInt8) (t : Table) : Prop :=
  ∀ (mem : Memory) (base free fuel : ℕ), base ≠ 0 →
    base + buffer.length ≤ 2 ^ 64 → base + buffer.length ≤ free →
    BufferAt mem base buffer → t.size < fuel → ∃ restored heap,
    decompressStatement fuel base buffer.length mem = some restored ∧
    assignTableToColumns fuel base ⟨restored, free⟩ = some heap ∧
    TableAt heap.mem (Set.Ico base (base + t.size)) base t

/-- The bytes that `compress_statement` makes of a table. -/
structure IsPacked (bytes : List UInt8) (t : Table) : Prop where
  length : bytes.length = t.size
  packed : PackedTable (fun a => bytes.getD a 0) 0 t

def bytesFrom (mem : Memory) (a n : ℕ) : List UInt8 :=
  (List.range n).map fun i => mem (a + i)

theorem getD_bytesFrom {mem : Memory} {a n i : ℕ} (hi : i < n) :
    (bytesFrom mem a n).getD i 0 = mem (a + i) := by
  rw [bytesFrom, List.getD_eq_getElem?_getD, List.getElem?_map, List.getElem?_range hi]
  rfl

/-- What `compress_statement` writes is packed. -/
theorem isPacked_compressStatement (malloc : ℕ → ℕ) (fuel : ℕ) {t : Table} {mem : Memory}
    {region : Set ℕ} {stmt : ℕ} (htable : TableAt mem region stmt t) (hmalloc : malloc t.size ≠ 0)
    (hroom : Room (malloc t.size) region (malloc t.size) (malloc t.size + t.size))
    (hfuel : t.size < fuel) (hint : t.size < 2 ^ 31) :
    ∃ written, compressStatement malloc fuel stmt mem =
      some (t.size, malloc t.size, t.size, written) ∧
      IsPacked (bytesFrom written (malloc t.size) t.size) t := by
  obtain ⟨written, hwritten, hpacked⟩ :=
    compressStatement_spec t htable hmalloc hroom hfuel hint
  refine ⟨written, hwritten, ?_, ?_⟩
  · simp [bytesFrom]
  · apply hpacked.copied
    intro i hi
    rw [Nat.zero_add]
    exact getD_bytesFrom hi

theorem Table.size_pos (t : Table) : 0 < t.size := by
  simp only [Table.size]
  omega

/-- A buffer that starts with the bytes of a table holds it. -/
theorem IsPacked.holds {bytes buffer : List UInt8} {t : Table} (hpacked : IsPacked bytes t)
    (hstart : bytes <+: buffer) : Holds buffer t := by
  intro mem base free fuel hbase hbound hfree hbuffer hfuel
  obtain ⟨rest, rfl⟩ := hstart
  have hlength := hpacked.length
  simp only [List.length_append] at hbound hfree
  have hcopied : PackedTable mem base t := by
    apply hpacked.packed.copied
    intro i hi
    rw [hbuffer i (by simp only [List.length_append]; omega), Nat.zero_add,
      List.getD_append _ _ _ _ (by omega)]
  obtain ⟨restored, hrestored, _, hunpacked⟩ := unpacks_table t hbound
    (Nat.le_refl _) hfuel base mem hbase hcopied (by omega)
  obtain ⟨heap, hheap, hassigned⟩ := assignTableToColumns_spec hunpacked
    (by omega : base + t.size ≤ free) (Nat.le_of_lt hfuel)
  refine ⟨restored, heap, ?_, hheap, hassigned.tableAt hbase⟩
  rw [List.length_append]
  exact hrestored

/-- A buffer holds one table only. -/
theorem Holds.unique {buffer : List UInt8} {first second : Table} (hshort : buffer.length < 2 ^ 64)
    (hfirst : Holds buffer first) (hsecond : Holds buffer second) : first = second := by
  have hbuffer : BufferAt (fun a => buffer.getD (a - 1) 0) 1 buffer := by
    intro i _
    simp
  obtain ⟨restored, heap, hrestored, hheap, htable⟩ := hfirst _ 1
    (1 + buffer.length) (first.size + second.size + 1) (by decide) (by omega)
    (Nat.le_refl _) hbuffer (by omega)
  obtain ⟨restored', heap', hrestored', hheap', htable'⟩ := hsecond _ 1
    (1 + buffer.length) (first.size + second.size + 1) (by decide) (by omega)
    (Nat.le_refl _) hbuffer (by omega)
  have hsame : restored = restored' :=
    Option.some.inj (hrestored.symm.trans hrestored')
  rw [hsame] at hheap
  have hheaps : heap = heap' := Option.some.inj (hheap.symm.trans hheap')
  rw [hheaps] at htable
  exact htable.unique htable'

end TableStatement

end Octo
