/-
`compress_statement`: a table statement is written as one block of bytes, in
which every pointer is relative to its own address.  The same code runs twice,
first without a buffer to count the bytes and then to write them.
-/
import Octo.TableStatement

namespace Octo

open Option

namespace TableStatement

open ByteMemory RelativeList

def callCompressHelper (helper : ℕ → Pass → Option (ℕ × Pass))
    (out value field : ℕ) (s : Pass) : Option Pass := do
  let (temp, s) ← helper value s
  some (s.write out fun mem =>
    if temp = 0 then store mem 8 field 0 else storeRelative mem field temp)

/-- A statement; what it points to is written next. -/
def compressHead (out stmt : ℕ) (s : Pass) : Pass :=
  let new := out + s.length
  let s := packCopy 32 out stmt s
  s.write out fun mem => storeRelative mem (new + 24) (out + s.length)

def compressTable (helper : ℕ → Pass → Option (ℕ × Pass)) (out table : ℕ)
    (s : Pass) : Option Pass := do
  let new := out + s.length
  let s := packCopy 48 out table s
  let s ← callCompressHelper helper out (load s.mem 8 table) new s
  let s ← callCompressHelper helper out (load s.mem 8 (table + 8)) (new + 8) s
  let s ← callCompressHelper helper out (load s.mem 8 (table + 16)) (new + 16) s
  callCompressHelper helper out (load s.mem 8 (table + 24)) (new + 24) s

def compressValue (helper : ℕ → Pass → Option (ℕ × Pass))
    (fuel out value : ℕ) (s : Pass) : Option Pass :=
  let new := out + s.length
  let s := packCopy 24 out value s
  let v := load s.mem 8 (value + 16)
  if load s.mem 4 value = ValueType.calculatedValue.code then
    callCompressHelper helper out v (new + 16) s
  else do
    let len ← strlen s.mem fuel v
    let s := (s.write out fun mem =>
      storeRelative (copy mem (out + s.length) v len) (new + 16) (out + s.length)).advance len
    let s := s.write out fun mem => store mem 1 (out + s.length) 0
    some (s.advance 1)

/-- What a column points to.  Its table is left out. -/
def compressColumn (helper : ℕ → Pass → Option (ℕ × Pass)) (out cur new : ℕ)
    (s : Pass) : Option Pass := do
  let s ← callCompressHelper helper out (load s.mem 8 cur) new s
  callCompressHelper helper out (load s.mem 8 (cur + 24)) (new + 24) s

def compressKeyword (helper : ℕ → Pass → Option (ℕ × Pass)) (out cur new : ℕ)
    (s : Pass) : Option Pass :=
  callCompressHelper helper out (load s.mem 8 (cur + 8)) (new + 8) s

/-- What a statement of some type points to. -/
def compressBody (helper : ℕ → Pass → Option (ℕ × Pass)) (fuel out : ℕ)
    (type : Option StatementType) (v : ℕ) (s : Pass) : Option Pass :=
  match type with
  | some .tableStatement => compressTable helper out v s
  | some .valueStatement => compressValue helper fuel out v s
  | some .columnStatement =>
    packList 32 out v (compressColumn helper out) fuel v s
  | some .keywordStatement =>
    packList 16 out v (compressKeyword helper out) fuel v s
  -- These lists are walked along and not written.
  | some .columnListStatement => some s
  | some .columnListAliasStatement => some s
  | _ => none

/-- `compress_statement_helper`, without a buffer if `out` is 0.  The pointer
it then returns is not read. -/
def compressStatementHelper (out : ℕ) : ℕ → ℕ → Pass → Option (ℕ × Pass)
  | 0, _, _ => none
  | fuel + 1, stmt, s =>
    if stmt = 0 then some (0, s)
    else if load s.mem 8 (stmt + 24) = 0 then some (0, s)
    else do
      let new := out + s.length
      let s := compressHead out stmt s
      let s ← compressBody (compressStatementHelper out fuel) fuel out
        (StatementType.ofCode (load s.mem 4 stmt)) (load s.mem 8 (stmt + 24)) s
      some (if out = 0 then 0 else new, s)

/-- `compress_statement`, with the bytes of both passes. -/
def compressStatement (malloc : ℕ → ℕ) (fuel stmt : ℕ) (mem : Memory) :
    Option (ℕ × ℕ × ℕ × Memory) := do
  let (_, sized) ← compressStatementHelper 0 fuel stmt ⟨mem, 0⟩
  -- `out_length` is an `int`; beyond its range nothing is known
  if 2 ^ 31 ≤ sized.length then none
  let out := malloc sized.length
  let (_, written) ← compressStatementHelper out fuel stmt ⟨mem, 0⟩
  some (sized.length, out, written.length, written.mem)

/-- A call writes something of `n` bytes, which is then `packed`. -/
def Packs (out n : ℕ) (region : Set ℕ) (source : Memory → Prop)
    (packed : Memory → ℕ → Prop) (call : Pass → Option (ℕ × Pass)) : Prop :=
  ∀ s, source s.mem → Room out region (out + s.length) (out + s.length + n) →
    ∃ s', call s = some (if out = 0 then 0 else out + s.length, s') ∧
      Wrote out n s s' ∧ (out ≠ 0 → packed s'.mem (out + s.length))

section Fields

variable {out n : ℕ} {region : Set ℕ} {source : Memory → Prop}
  {packed : Memory → ℕ → Prop} {helper : ℕ → Pass → Option (ℕ × Pass)} {value : ℕ} {s : Pass}

/-- A pointer field that was written before is set to what follows. -/
theorem callCompressHelper_spec (field : ℕ) {low high : ℕ}
    (hpacks : Packs out n region source packed (helper value))
    (hcongr : ∀ {mem mem' : Memory} {a : ℕ},
    Set.EqOn mem mem' (Set.Ico a (a + n)) → packed mem a → packed mem' a) (hn : 0 < n)
    (hsource : source s.mem) (hroom : Room out region low high)
    (hwithin : out ≠ 0 → low ≤ field ∧ field + 8 ≤ out + s.length ∧ out + s.length + n ≤ high) :
    ∃ s', callCompressHelper helper out value field s = some s' ∧ s'.length = s.length + n ∧
    (∀ b, out = 0 ∨ b < field ∨ field + 8 ≤ b ∧ b < out + s.length ∨
    out + s.length + n ≤ b → s'.mem b = s.mem b) ∧ Set.EqOn s.mem s'.mem region ∧
    (out ≠ 0 → Relative s'.mem field (out + s.length) ∧ packed s'.mem (out + s.length)) := by
  have hroom' : Room out region (out + s.length) (out + s.length + n) :=
    hroom.mono fun hout => by
      omega
  obtain ⟨s1, hs1, hwrote, hpacked⟩ := hpacks s hsource hroom'
  by_cases hout : out = 0
  · refine ⟨s1, ?_, hwrote.length, fun b _ => hwrote.same b (.inl hout),
      fun b _ => (hwrote.same b (.inl hout)).symm, fun h => absurd hout h⟩
    simp [callCompressHelper, hs1, Pass.write, hout]
  · obtain ⟨hlow, hbelow, hhigh⟩ := hwithin hout
    have hmem : ∀ b, b < field ∨ field + 8 ≤ b ∧ b < out + s.length ∨ out + s.length + n ≤ b →
        (s1.write out fun mem =>
          storeRelative mem field (out + s.length)).mem b = s.mem b := by
      intro b hb
      rw [Pass.mem_write _ hout, storeRelative, store_apply (by omega), hwrote.same b (by omega)]
    refine ⟨s1.write out fun mem => storeRelative mem field (out + s.length), ?_, ?_, ?_, ?_, ?_⟩
    · simp [callCompressHelper, hs1, hout]
    · rw [Pass.length_write, hwrote.length]
    · intro b hb
      exact hmem b (hb.resolve_left hout)
    · intro b hb
      have := (hroom hout).2 b hb
      exact (hmem b (by omega)).symm
    · intro _
      rw [Pass.mem_write _ hout]
      constructor
      · apply relative_storeRelative
        · omega
        · have := (hroom' hout).1
          omega
      · apply hcongr _ (hpacked hout)
        rintro b ⟨hlow, -⟩
        rw [storeRelative, store_apply (by omega)]

end Fields

section Head

variable {out stmt : ℕ} {s : Pass}

theorem length_compressHead : (compressHead out stmt s).length = s.length + 32 := by
  simp [compressHead, length_packCopy]

theorem compressHead_same {b : ℕ} (hb : out = 0 ∨ b < out + s.length ∨ out + s.length + 32 ≤ b) :
    (compressHead out stmt s).mem b = s.mem b := by
  by_cases hout : out = 0
  · rw [hout]
    rfl
  · rw [compressHead, Pass.mem_write _ hout, storeRelative,
      store_apply (by omega), packCopy_same (by omega)]

theorem compressHead_packed (hout : out ≠ 0) {type : StatementType}
    (htype : load s.mem 4 stmt = type.code) (hbound : out + s.length + 32 < 2 ^ 64) :
    PackedStatement (compressHead out stmt s).mem (out + s.length) type := by
  rw [compressHead, Pass.mem_write _ hout, length_packCopy, ← Nat.add_assoc]
  constructor
  · rw [storeRelative, load_store_of_disjoint (by omega), ← htype]
    apply load_shift
    intro i hi
    exact packCopy_apply hout (by omega)
  · exact relative_storeRelative (by omega) hbound

end Head

section Statements

variable {out fuel stmt n : ℕ} {region : Set ℕ}

/-- What a body has to do: write `n` bytes that are then `packed`. -/
def BodyPacks (out fuel n : ℕ) (region : Set ℕ) (type : StatementType)
    (payload : Memory → ℕ → Prop) (packed : Memory → ℕ → Prop) : Prop :=
  ∀ (s : Pass) (v : ℕ), payload s.mem v → Room out region (out + s.length) (out + s.length + n) →
    ∃ s', compressBody (compressStatementHelper out fuel) fuel out (some type) v s = some s' ∧
    Wrote out n s s' ∧ (out ≠ 0 → packed s'.mem (out + s.length))

theorem packs_statement {type : StatementType} {payload packed : Memory → ℕ → Prop}
    (hcongr : ∀ {mem mem' : Memory} {v : ℕ}, Set.EqOn mem mem' region →
    payload mem v → payload mem' v) (hbody : BodyPacks out fuel n region type payload packed)
    (hn : 0 < n) : Packs out (32 + n) region
    (fun mem => StatementAt mem region stmt type (payload mem))
    (fun mem a => PackedStatement mem a type ∧ packed mem (a + 32))
    (compressStatementHelper out (fuel + 1) stmt) := by
  intro s hstmt hroom
  have hregion : Set.EqOn s.mem (compressHead out stmt s).mem region :=
    hroom.eqOn fun b hb => compressHead_same (by omega)
  have hhead := hstmt.congr hregion (Set.Subset.refl _) (fun v hv => hcongr hregion hv)
  obtain ⟨hne, _, _, htype, _, hpayload⟩ := hhead
  obtain ⟨_, _, _, htype0, hv, _⟩ := hstmt
  obtain ⟨s', hs', hwrote, hpacked⟩ := hbody (compressHead out stmt s) _
    hpayload (hroom.mono fun _ =>
      ⟨by rw [length_compressHead]; omega, by rw [length_compressHead]; omega⟩)
  have hlength := hwrote.length
  have hsame := hwrote.same
  rw [length_compressHead] at hlength hsame hpacked
  refine ⟨s', ?_, ⟨by omega, ?_⟩, ?_⟩
  · rw [compressStatementHelper, if_neg hne, if_neg hv]
    simp [htype, StatementType.ofCode_code, hs']
  · intro b hb
    rw [hsame b (by omega), compressHead_same (by omega)]
  · intro hout
    have hbound := (hroom hout).1
    refine ⟨(compressHead_packed hout htype0 (by omega)).congr ?_, ?_⟩
    · rintro b ⟨-, hhigh⟩
      exact (hsame b (by omega)).symm
    · rw [Nat.add_assoc]
      exact hpacked hout

end Statements

section Values

variable {out fuel : ℕ} {region : Set ℕ}

/-- The copy of a value and its string, as it is in memory in the end. -/
theorem packedText_written {mem : Memory} {a q : ℕ} {v : Value} (htype : load mem 4 a = v.type.code)
    (htext : StringAt mem q v.text) (hbound : a + 24 + v.text.length < 2 ^ 64) : PackedText
    (store (storeRelative (copy mem (a + 24) q v.text.length) (a + 16)
    (a + 24)) 1 (a + 24 + v.text.length) 0) a v := by
  refine ⟨?_, ?_, ?_⟩
  · rw [load_store_of_disjoint (by omega), storeRelative,
      load_store_of_disjoint (by omega), ← htype]
    apply load_congr
    rintro b ⟨-, hhigh⟩
    exact copy_apply (by omega)
  · apply Relative.congr (relative_storeRelative (by omega) (by omega))
    rintro b ⟨-, hhigh⟩
    exact (store_apply (by omega)).symm
  · apply htext.of_shift
    · intro i hi
      rw [store_apply (by omega), storeRelative, store_apply (by omega), copy_apply_add hi]
    · simp [store]

theorem bodyPacks_value (v : Value) (hfuel : v.text.length < fuel) :
    BodyPacks out fuel (24 + v.text.length + 1) region .valueStatement
    (fun mem => ValuePayload mem region v) (fun mem a => PackedText mem a v) := by
  intro s value hvalue hroom
  have hregion : Set.EqOn s.mem (packCopy 24 out value s).mem region :=
    hroom.eqOn fun b hb => packCopy_same (by omega)
  have hvalue1 := hvalue.congr hregion (Set.Subset.refl _)
  obtain ⟨htypeIn, _, htype, _, htext⟩ := hvalue1
  have hnot : load (packCopy 24 out value s).mem 4 value ≠
      ValueType.calculatedValue.code := by
    rw [htype]
    exact ValueType.code_ne v.notCalculated
  rw [compressBody, compressValue, if_neg hnot, htext.strlen_eq hfuel]
  refine ⟨_, rfl, ⟨?_, ?_⟩, ?_⟩
  · simp only [Pass.length_advance, Pass.length_write, length_packCopy]
    omega
  · intro b hb
    by_cases hout : out = 0
    · simp [hout, packCopy_same]
    · simp only [Pass.mem_advance, Pass.mem_write _ hout, Pass.length_advance,
        Pass.length_write, length_packCopy]
      rw [store_apply (by omega), storeRelative, store_apply (by omega),
        copy_apply (by omega), packCopy_same (by omega)]
  · intro hout
    have hbound := (hroom hout).1
    have hcopied : load (packCopy 24 out value s).mem 4 (out + s.length) =
        v.type.code := by
      rw [← hvalue.2.2.1]
      apply load_shift
      intro i hi
      exact packCopy_apply hout (by omega)
    simp only [Pass.mem_advance, Pass.mem_write _ hout, Pass.length_advance,
      Pass.length_write, length_packCopy, ← Nat.add_assoc]
    exact packedText_written hcopied htext (by omega)

theorem packs_value (v : Value) {stmt : ℕ} (hfuel : v.size ≤ fuel) :
    Packs out v.size region (fun mem => ValueAt mem region stmt v)
    (fun mem a => PackedValue mem a v) (compressStatementHelper out fuel stmt) := by
  have hsize : v.size = 32 + (24 + v.text.length + 1) := by
    simp only [Value.size]
    omega
  obtain ⟨fuel, rfl⟩ : ∃ k, fuel = k + 1 := ⟨fuel - 1, by omega⟩
  have hbody : BodyPacks out fuel (24 + v.text.length + 1) region
      .valueStatement (fun mem => ValuePayload mem region v)
      (fun mem a => PackedText mem a v) := bodyPacks_value v (by omega)
  rw [hsize]
  exact packs_statement (fun hsame hpayload => hpayload.congr hsame (Set.Subset.refl _)) hbody
    (by omega)

theorem Value.size_pos (v : Value) : 0 < v.size := by
  simp only [Value.size]
  omega

end Values

section Lists

variable {out fuel : ℕ} {region : Set ℕ}

/-- A field of a copied struct. -/
theorem load_copied (field : ℕ) {mem : Memory} {cur new front width code : ℕ}
    (hcopied : ∀ i < front, cur + i ∈ region → mem (new + i) = mem (cur + i))
    (hin : Set.Ico (cur + field) (cur + field + width) ⊆ region) (hfield : field + width ≤ front)
    (hcode : load mem width (cur + field) = code) : load mem width (new + field) = code := by
  rw [← hcode]
  apply load_shift
  intro i hi
  rw [Nat.add_assoc, Nat.add_assoc]
  apply hcopied (field + i) (by omega)
  exact hin ⟨by omega, by omega⟩

theorem packsFields_keyword (k : Keyword) (hfuel : k.width ≤ fuel) (hpos : 0 < fuel) :
    keywordLayout.PacksFields out region
    (compressKeyword (compressStatementHelper out fuel) out) k := by
  intro cur new s hnode hcopied hroom
  obtain ⟨hin, hcode, hvalue⟩ := hnode
  have htag : out ≠ 0 → load s.mem 4 new = k.keyword.code := by
    intro hout
    exact load_copied 0 (hcopied hout).2
      ((Set.Ico_subset_Ico (by omega) (by omega)).trans hin) (by decide) hcode
  simp only [keywordLayout] at hcopied hroom ⊢
  unfold compressKeyword
  cases hk : k.value with
  | none =>
    have hnull : load s.mem 8 (cur + 8) = 0 := by
      rw [hk] at hvalue
      exact hvalue
    obtain ⟨fuel, rfl⟩ : ∃ j, fuel = j + 1 :=
      Nat.exists_eq_add_one_of_ne_zero hpos.ne'
    have hwidth : k.width = 0 := by simp [Keyword.width, hk]
    refine ⟨_, by simp [hnull, callCompressHelper, compressStatementHelper]; rfl, by simp [hwidth],
      ?_, ?_⟩
    · intro b hb
      by_cases hout : out = 0
      · simp [hout]
      · have := (hcopied hout).1
        rw [Pass.mem_write _ hout, store_apply (by omega)]
    · intro hout
      rw [Pass.mem_write _ hout]
      constructor
      · rw [load_store_of_disjoint (by omega)]
        exact htag hout
      · rw [hk]
        exact load_store 8 (new + 8) 0
  | some v =>
    have hwidth : k.width = v.size := by simp [Keyword.width, hk]
    rw [hk] at hvalue
    rw [hwidth] at hroom hfuel ⊢
    have hwithin : out ≠ 0 → new ≤ new + 8 ∧ new + 8 + 8 ≤ out + s.length ∧
        out + s.length + v.size ≤ out + s.length + v.size := by
      intro hout
      omega
    obtain ⟨s', hs', hlength, hsame, _, hpacked⟩ := callCompressHelper_spec
      (new + 8) (packs_value v hfuel) (fun hsame h => h.congr hsame) v.size_pos hvalue hroom hwithin
    refine ⟨s', hs', hlength, ?_, ?_⟩
    · intro b hb
      by_cases hout : out = 0
      · exact hsame b (.inl hout)
      · have := (hcopied hout).1
        exact hsame b (by omega)
    · intro hout
      have hnew := (hcopied hout).1
      obtain ⟨hptr, hpackedValue⟩ := hpacked hout
      constructor
      · rw [← htag hout]
        apply load_congr
        rintro b ⟨-, hhigh⟩
        exact hsame b (by omega)
      · rw [hk, ← hnew] at *
        exact ⟨hptr, hpackedValue⟩

/-- A statement that points to a circular list. -/
theorem packs_list {α : Type*} (L : Layout α) {type : StatementType}
    {fields : ℕ → ℕ → Pass → Option Pass} {xs : List α} {stmt : ℕ}
    (hbody : ∀ v s, compressBody (compressStatementHelper out fuel) fuel out
    (some type) v s = packList L.front out v fields fuel v s)
    (hfields : ∀ x ∈ xs, L.PacksFields out region fields x) (hfuel : xs.length ≤ fuel) :
    Packs out (32 + L.total xs) region (fun mem => StatementAt mem region stmt type
    fun v => L.Ring mem region v xs) (fun mem a => PackedStatement mem a type ∧ xs ≠ [] ∧
    L.PackedFrom mem (a + 32) xs) (compressStatementHelper out (fuel + 1) stmt) := by
  by_cases hne : xs = []
  · intro s hstmt
    exact absurd hne hstmt.2.2.2.2.2.1
  have hpacks : BodyPacks out fuel (L.total xs) region type (fun mem v => L.Ring mem region v xs)
      (fun mem a => xs ≠ [] ∧ L.PackedFrom mem a xs) := by
    intro s v hring hroom
    obtain ⟨s', hs', hwrote, hpacked⟩ :=
      Layout.packList_spec hne hfields hfuel hring.2 hroom
    exact ⟨s', (hbody v s).trans hs', hwrote, fun hout => ⟨hne, hpacked hout⟩⟩
  have hpos : 0 < L.total xs :=
    Nat.lt_of_lt_of_le (List.length_pos_iff.mpr hne) (L.length_le_total xs)
  exact packs_statement (fun hsame hring => ⟨hring.1, hring.2.congr hsame (Set.Subset.refl _)⟩)
    hpacks hpos

theorem packs_keywords (ks : List Keyword) {stmt : ℕ} (hfuel : keywordsSize ks ≤ fuel) :
    Packs out (keywordsSize ks) region (fun mem => KeywordsAt mem region stmt ks)
    (fun mem a => PackedKeywords mem a ks) (compressStatementHelper out fuel stmt) := by
  simp only [keywordsSize] at hfuel
  obtain ⟨fuel, rfl⟩ : ∃ j, fuel = j + 1 := ⟨fuel - 1, by omega⟩
  have hlength := keywordLayout.length_le_total ks
  apply packs_list keywordLayout (fun v s => rfl) _ (by omega)
  intro k hk
  have hblock := keywordLayout.block_le_total hk
  apply packsFields_keyword k _ (by omega)
  have hwidth : keywordLayout.block k = 16 + 16 + k.width := rfl
  omega

theorem keywordsSize_pos (ks : List Keyword) : 0 < keywordsSize ks := by
  simp only [keywordsSize]
  omega

theorem packsFields_column (c : Column) (hfuel : c.width ≤ fuel) :
    columnLayout.PacksFields out region
      (compressColumn (compressStatementHelper out fuel) out) c := by
  intro cur new s hnode hcopied hroom
  obtain ⟨hin, hptrIn, hname, htype, hks⟩ := hnode
  have htag : out ≠ 0 → load s.mem 4 (new + 8) = c.type.code := by
    intro hout
    exact load_copied 8 (hcopied hout).2
      ((Set.Ico_subset_Ico (by omega) (by omega)).trans hin) (by decide) htype
  simp only [columnLayout, Column.width] at hcopied hroom hfuel ⊢
  have hfuelName : c.name.size ≤ fuel := by omega
  have hfuelKeywords : keywordsSize c.keywords ≤ fuel := by omega
  -- The name first.
  have hwithin1 : out ≠ 0 → new ≤ new ∧ new + 8 ≤ out + s.length ∧ out + s.length + c.name.size ≤
      out + s.length + (c.name.size + keywordsSize c.keywords) := by
    intro hout
    omega
  obtain ⟨s1, hs1, hlength1, hsame1, hregion1, hpacked1⟩ :=
    callCompressHelper_spec new (packs_value c.name hfuelName)
      (fun hsame h => h.congr hsame) c.name.size_pos hname hroom hwithin1
  have hks1 := hks.congr hregion1 (Set.Subset.refl _)
  rw [show load s.mem 8 (cur + 24) = load s1.mem 8 (cur + 24) from
    load_congr (hregion1.mono hptrIn)] at hks1
  -- Then the keywords.
  have hwithin2 : out ≠ 0 → new ≤ new + 24 ∧ new + 24 + 8 ≤ out + s1.length ∧
      out + s1.length + keywordsSize c.keywords ≤
        out + s.length + (c.name.size + keywordsSize c.keywords) := by
    intro hout
    have := hcopied hout
    omega
  obtain ⟨s2, hs2, hlength2, hsame2, _, hpacked2⟩ :=
    callCompressHelper_spec (new + 24) (packs_keywords c.keywords hfuelKeywords)
      (fun hsame h => h.congr hsame) (keywordsSize_pos _) hks1 hroom hwithin2
  refine ⟨s2, ?_, by omega, ?_, ?_⟩
  · simp [compressColumn, hs1, hs2]
  · intro b hb
    by_cases hout : out = 0
    · rw [hsame2 b (.inl hout), hsame1 b (.inl hout)]
    · have := hcopied hout
      rw [hsame2 b (by omega), hsame1 b (by omega)]
  · intro hout
    have hnew := (hcopied hout).1
    obtain ⟨hptr1, hvalue1⟩ := hpacked1 hout
    obtain ⟨hptr2, hkeywords2⟩ := hpacked2 hout
    have hkeep : ∀ b, b < new + 24 ∨ new + 32 ≤ b ∧ b < out + s1.length → s1.mem b = s2.mem b := by
      intro b hb
      exact (hsame2 b (by omega)).symm
    have htarget2 : new + 48 + c.name.size = out + s1.length := by omega
    rw [PackedColumn, htarget2, hnew]
    refine ⟨hptr1.congr ?_, hvalue1.congr ?_, ?_, hptr2, hkeywords2⟩
    · rintro b ⟨-, hhigh⟩
      exact hkeep b (by omega)
    · rintro b ⟨hlow, hhigh⟩
      exact hkeep b (by omega)
    · rw [← htag hout]
      apply load_congr
      rintro b ⟨hlow, hhigh⟩
      rw [hsame2 b (by omega), hsame1 b (by omega)]

theorem packs_columns (cs : List Column) {stmt : ℕ} (hfuel : columnsSize cs ≤ fuel) :
    Packs out (columnsSize cs) region (fun mem => ColumnsAt mem region stmt cs)
    (fun mem a => PackedColumns mem a cs) (compressStatementHelper out fuel stmt) := by
  simp only [columnsSize] at hfuel
  obtain ⟨fuel, rfl⟩ : ∃ j, fuel = j + 1 := ⟨fuel - 1, by omega⟩
  have hlength := columnLayout.length_le_total cs
  apply packs_list columnLayout (fun v s => rfl) _ (by omega)
  intro c hc
  have hblock := columnLayout.block_le_total hc
  apply packsFields_column c
  have hwidth : columnLayout.block c = 32 + 16 + c.width := rfl
  omega

theorem columnsSize_pos (cs : List Column) : 0 < columnsSize cs := by
  simp only [columnsSize]
  omega

end Lists

section Tables

variable {out fuel : ℕ} {region : Set ℕ}

theorem bodyPacks_table (t : Table) (hfuel : t.size ≤ fuel) :
    BodyPacks out fuel (48 + t.name.size + keywordsSize t.source +
    columnsSize t.columns + keywordsSize t.delim) region .tableStatement
    (fun mem => TablePayload mem region t) (fun mem a => PackedFields mem a t) := by
  intro s table htable hroom
  simp only [Table.size] at hfuel
  have hregion0 : Set.EqOn s.mem (packCopy 48 out table s).mem region :=
    hroom.eqOn fun b hb => packCopy_same (by omega)
  have htable0 := htable.congr hregion0 (Set.Subset.refl _)
  obtain ⟨s0, hs0⟩ : ∃ s0, s0 = packCopy 48 out table s := ⟨_, rfl⟩
  have hlength0 : s0.length = s.length + 48 := by
    rw [hs0, length_packCopy]
  have hsame0 : ∀ b, out = 0 ∨ b < out + s.length ∨
      out + s.length + 48 ≤ b → s0.mem b = s.mem b := by
    intro b hb
    rw [hs0, packCopy_same hb]
  rw [← hs0] at htable0
  obtain ⟨s1, hs1, hlength1, hsame1, hregion1, hpacked1⟩ :=
    callCompressHelper_spec (out + s.length) (packs_value t.name (by omega : t.name.size ≤ fuel))
      (fun hsame h => h.congr hsame) t.name.size_pos htable0.2.1 hroom (fun _ => by omega)
  have htable1 := htable0.congr hregion1 (Set.Subset.refl _)
  obtain ⟨s2, hs2, hlength2, hsame2, hregion2, hpacked2⟩ :=
    callCompressHelper_spec (out + s.length + 8)
      (packs_keywords t.source (by omega : keywordsSize t.source ≤ fuel))
      (fun hsame h => h.congr hsame) (keywordsSize_pos _) htable1.2.2.1 hroom (fun _ => by omega)
  have htable2 := htable1.congr hregion2 (Set.Subset.refl _)
  obtain ⟨s3, hs3, hlength3, hsame3, hregion3, hpacked3⟩ :=
    callCompressHelper_spec (out + s.length + 16)
      (packs_columns t.columns (by omega : columnsSize t.columns ≤ fuel))
      (fun hsame h => h.congr hsame) (columnsSize_pos _) htable2.2.2.2.1 hroom (fun _ => by omega)
  have htable3 := htable2.congr hregion3 (Set.Subset.refl _)
  obtain ⟨s4, hs4, hlength4, hsame4, _, hpacked4⟩ :=
    callCompressHelper_spec (out + s.length + 24)
      (packs_keywords t.delim (by omega : keywordsSize t.delim ≤ fuel))
      (fun hsame h => h.congr hsame) (keywordsSize_pos _) htable3.2.2.2.2 hroom (fun _ => by omega)
  refine ⟨s4, ?_, ⟨by omega, ?_⟩, ?_⟩
  · simp [compressBody, compressTable, ← hs0, hs1, hs2, hs3, hs4]
  · intro b hb
    rw [hsame4 b (by omega), hsame3 b (by omega), hsame2 b (by omega),
      hsame1 b (by omega), hsame0 b (by omega)]
  · intro hout
    -- Later fields are written elsewhere.
    have hkeep4 : ∀ b, b < out + s.length + 24 ∨
        out + s.length + 32 ≤ b ∧ b < out + s3.length → s3.mem b = s4.mem b :=
      fun b hb => (hsame4 b (by omega)).symm
    have hkeep3 : ∀ b, b < out + s.length + 16 ∨
        out + s.length + 32 ≤ b ∧ b < out + s2.length → s2.mem b = s4.mem b := by
      intro b hb
      rw [← hkeep4 b (by omega), hsame3 b (by omega)]
    have hkeep2 : ∀ b, b < out + s.length + 8 ∨
        out + s.length + 32 ≤ b ∧ b < out + s1.length → s1.mem b = s4.mem b := by
      intro b hb
      rw [← hkeep3 b (by omega), hsame2 b (by omega)]
    obtain ⟨hptr1, hname1⟩ := hpacked1 hout
    obtain ⟨hptr2, hsource2⟩ := hpacked2 hout
    obtain ⟨hptr3, hcolumns3⟩ := hpacked3 hout
    obtain ⟨hptr4, hdelim4⟩ := hpacked4 hout
    have htarget1 : out + s.length + 48 = out + s0.length := by omega
    have htarget2 : out + s0.length + t.name.size = out + s1.length := by omega
    have htarget3 : out + s1.length + keywordsSize t.source = out + s2.length := by omega
    have htarget4 : out + s2.length + columnsSize t.columns = out + s3.length := by omega
    rw [PackedFields, htarget1, htarget2, htarget3, htarget4]
    refine ⟨⟨hptr1.congr ?_, hname1.congr ?_⟩, ⟨hptr2.congr ?_, hsource2.congr ?_⟩,
      ⟨hptr3.congr ?_, hcolumns3.congr ?_⟩, hptr4, hdelim4⟩
    · exact fun b hb => hkeep2 b (.inl (by have := hb.2; omega))
    · exact fun b hb => hkeep2 b (.inr ⟨by have := hb.1; omega, by have := hb.2; omega⟩)
    · exact fun b hb => hkeep3 b (.inl (by have := hb.2; omega))
    · exact fun b hb => hkeep3 b (.inr ⟨by have := hb.1; omega, by have := hb.2; omega⟩)
    · exact fun b hb => hkeep4 b (.inl (by have := hb.2; omega))
    · exact fun b hb => hkeep4 b (.inr ⟨by have := hb.1; omega, by have := hb.2; omega⟩)

theorem packs_table (out : ℕ) (t : Table) {stmt : ℕ} (hfuel : t.size < fuel) :
    Packs out t.size region (fun mem => TableAt mem region stmt t)
    (fun mem a => PackedTable mem a t) (compressStatementHelper out fuel stmt) := by
  obtain ⟨fuel, rfl⟩ : ∃ j, fuel = j + 1 := ⟨fuel - 1, by omega⟩
  have hsize := t.size_eq
  have hbody : BodyPacks out fuel (48 + t.name.size + keywordsSize t.source +
        columnsSize t.columns + keywordsSize t.delim) region .tableStatement
      (fun mem => TablePayload mem region t)
      (fun mem a => PackedFields mem a t) := bodyPacks_table t (by omega)
  rw [hsize]
  exact packs_statement (fun hsame htable => htable.congr hsame (Set.Subset.refl _)) hbody
    (by omega)

/-- Both passes go on by the same number of bytes, and the second one writes
the table. -/
theorem compressStatement_spec (t : Table) {mem : Memory} {stmt : ℕ} {malloc : ℕ → ℕ}
    (htable : TableAt mem region stmt t) (hmalloc : malloc t.size ≠ 0)
    (hroom : Room (malloc t.size) region (malloc t.size) (malloc t.size + t.size))
    (hfuel : t.size < fuel) (hint : t.size < 2 ^ 31) :
    ∃ mem', compressStatement malloc fuel stmt mem =
      some (t.size, malloc t.size, t.size, mem') ∧ PackedTable mem' (malloc t.size) t := by
  obtain ⟨sized, hsized, hcount, _⟩ := packs_table 0 t hfuel ⟨mem, 0⟩ htable (fun h => absurd rfl h)
  obtain ⟨written, hwritten, hwrote, hpacked⟩ := packs_table (malloc t.size) t
    hfuel ⟨mem, 0⟩ htable hroom
  have hlength1 : sized.length = t.size := by simpa using hcount.length
  have hlength2 : written.length = t.size := by simpa using hwrote.length
  refine ⟨written.mem, ?_, by simpa using hpacked hmalloc⟩
  simp only [compressStatement, hsized, Option.bind_eq_bind, Option.bind_some, hlength1,
    if_neg (not_le.mpr hint), hwritten, hlength2]

end Tables

end TableStatement

end Octo
