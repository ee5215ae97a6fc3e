/-
The bytes of table definitions in the schema global.  CREATE TABLE stores them
in chunks of MAX_STR_CONST bytes and `find_table` puts the chunks one behind
the other again.  Chunks of an older, longer definition may be left behind
them.
-/
import Mathlib.Data.Sum.Order
import Octo.OrderLoop
import Octo.TableBuffer
import Mathlib.Data.Char

namespace Octo

open GlobalTree TableStatement List Global

abbrev TableName := List Char

/-- Subscripts of the schema global: numbers come before texts. -/
abbrev SchemaSub := ℕ ⊕ₗ TableName

def textSub (text : String) : SchemaSub := toLex (Sum.inr text.toList)

def nameSub (name : TableName) : SchemaSub := toLex (Sum.inr name)

def numberSub (n : ℕ) : SchemaSub := toLex (Sum.inl n)

abbrev Schema := Global SchemaSub (List UInt8)

/-- The definitions in the database, and those that the process has loaded. -/
structure Process where
  schema : Schema
  loaded : Schema

def Process.empty : Process := ⟨Global.empty, Global.empty⟩

def maxStrConst : ℕ := 32768

def chunkPath (name : TableName) (i : ℕ) : List SchemaSub :=
  [nameSub name, textSub "b", numberSub i]

/-- The loop that stores the bytes of a definition. -/
def writeChunks (name : TableName) : ℕ → ℕ → List UInt8 → Schema → Schema
  | 0, _, _, schema => schema
  | fuel + 1, i, bytes, schema =>
    if bytes = [] then schema
    else
      writeChunks name fuel (i + 1) (bytes.drop maxStrConst)
        (schema.set (chunkPath name i) (bytes.take maxStrConst))

/-- CREATE TABLE, with the text and the bytes of the definition. -/
def createTable (name : TableName) (text bytes : List UInt8) (p : Process) :
    Process :=
  let schema := p.schema.set [nameSub name, textSub "t"] text
  let schema := writeChunks name bytes.length 0 bytes schema
  { p with
    schema := schema.set [nameSub name, textSub "l"] (decimal bytes.length) }

def dropTable (name : TableName) (p : Process) : Process where
  schema := p.schema.kill [nameSub name]
  loaded :=
    if (p.loaded.get [nameSub name]).isSome then p.loaded.kill [nameSub name]
    else p.loaded

/-- A chunk in its place in the buffer, which is zero before. -/
def padded (chunk : List UInt8) : List UInt8 :=
  chunk ++ List.replicate (maxStrConst - chunk.length) 0

/-- The two loops of `find_table` over the chunks of a definition. -/
def loadTable (schema : Schema) (name : TableName) : Option (Option (List UInt8)) := do
  let path := [nameSub name, textSub "b"]
  let fuel := schema.nodes.length + 1
  let parts ← forOrder (fun _ => schema) path (fun _ n => n + 1) fuel none 0
  if parts = 0 then some none
  else
    let buffer ← forOrder (fun _ => schema) path (fun sub buffer =>
        buffer ++ padded ((schema.get (path ++ [sub])).getD [])) fuel none []
    some (some buffer)

section Chunks

variable {name : TableName}

theorem chunkPath_inj {other : TableName} {i j : ℕ}
    (hpath : chunkPath name i = chunkPath other j) : name = other ∧ i = j := by
  simpa [chunkPath, nameSub, numberSub] using hpath

def chunkAt (bytes : List UInt8) (i : ℕ) : List UInt8 :=
  (bytes.drop (i * maxStrConst)).take maxStrConst

variable {bytes : List UInt8}

theorem get_writeChunks (name : TableName) (i : ℕ) (schema : Schema) {fuel : ℕ}
    (hfuel : bytes.length ≤ fuel) (path : List SchemaSub) :
    (∃ j, path = chunkPath name (i + j) ∧ j * maxStrConst < bytes.length ∧
    (writeChunks name fuel i bytes schema).get path = some (chunkAt bytes j)) ∨
    (∀ j, path = chunkPath name (i + j) → bytes.length ≤ j * maxStrConst) ∧
    (writeChunks name fuel i bytes schema).get path = schema.get path := by
  induction fuel generalizing i bytes schema with
  | zero =>
    right
    refine ⟨fun j _ => ?_, rfl⟩
    omega
  | succ fuel ih =>
    rw [writeChunks]
    by_cases hbytes : bytes = []
    · rw [if_pos hbytes]
      right
      refine ⟨fun j _ => ?_, rfl⟩
      simp [hbytes]
    · rw [if_neg hbytes]
      have hpos : 0 < bytes.length := length_pos_iff.mpr hbytes
      have hmax : 0 < maxStrConst := by decide
      have hlength : (bytes.drop maxStrConst).length = bytes.length - maxStrConst := length_drop
      rcases ih (i + 1) (schema.set (chunkPath name i) (bytes.take maxStrConst))
          (by omega : (bytes.drop maxStrConst).length ≤ fuel) with
        ⟨j, hpath, hj, hget⟩ | ⟨hpath, hget⟩
      · left
        refine ⟨j + 1, ?_, ?_, ?_⟩
        · rw [hpath]
          congr 1
          omega
        · rw [Nat.add_mul, Nat.one_mul]
          omega
        · rw [hget, chunkAt, chunkAt, drop_drop, Nat.add_mul, Nat.one_mul, Nat.add_comm maxStrConst]
      · by_cases hfirst : path = chunkPath name i
        · left
          refine ⟨0, hfirst, by omega, ?_⟩
          rw [hget, hfirst, get_set_self]
          simp [chunkAt]
        · right
          rw [hget, get_set_ne _ _ hfirst]
          refine ⟨?_, rfl⟩
          intro j hj
          cases j with
          | zero => exact absurd hj hfirst
          | succ k =>
            have hk := hpath k (by rw [hj]; congr 1; omega)
            rw [Nat.add_mul, Nat.one_mul]
            omega

/-- Below a table there are `count` chunks and nothing else. -/
structure Chunked (schema : Schema) (name : TableName) (count : ℕ) : Prop where
  only : ∀ path, [nameSub name, textSub "b"] <+: path →
    (schema.get path).isSome → ∃ i < count, path = chunkPath name i
  chunk : ∀ i < count, ∃ chunk, schema.get (chunkPath name i) = some chunk ∧
    chunk.length ≤ maxStrConst
  short : count * maxStrConst < 2 ^ 31 + maxStrConst

/-- The chunks of some bytes, with whatever is left of longer ones. -/
def ChunksOf (schema : Schema) (name : TableName) (bytes : List UInt8) :
    Prop :=
  ∀ i, i * maxStrConst < bytes.length → schema.get (chunkPath name i) = some (chunkAt bytes i)

variable {schema : Schema} {count : ℕ}

theorem chunkPath_eq (i : ℕ) :
    chunkPath name i = [nameSub name, textSub "b"] ++ [numberSub i] := rfl

theorem Chunked.hasData_iff (hchunked : Chunked schema name count) {sub : SchemaSub} :
    schema.HasData ([nameSub name, textSub "b"] ++ [sub]) ↔ ∃ i < count, sub = numberSub i := by
  rw [hasData_iff_paths]
  constructor
  · rintro ⟨path, hpath, tail, htail⟩
    obtain ⟨i, hi, heq⟩ := hchunked.only path
      ⟨sub :: tail, by simpa using htail⟩ (mem_paths.mp hpath)
    rw [← htail] at heq
    simp only [chunkPath, cons_append, nil_append, List.cons.injEq, true_and] at heq
    exact ⟨i, hi, heq.1⟩
  · rintro ⟨i, hi, rfl⟩
    obtain ⟨chunk, hchunk, _⟩ := hchunked.chunk i hi
    refine ⟨chunkPath name i, mem_paths.mpr (by rw [hchunk]; rfl), ?_⟩
    exact prefix_refl _

theorem numberSub_lt {i j : ℕ} : numberSub i < numberSub j ↔ i < j :=
  Sum.Lex.inl_lt_inl_iff

theorem numberSub_le {i j : ℕ} : numberSub i ≤ numberSub j ↔ i ≤ j :=
  Sum.Lex.inl_le_inl_iff

/-- The last subscript of the first `k` chunks. -/
def lastSub : ℕ → Option SchemaSub
  | 0 => none
  | k + 1 => some (numberSub k)

theorem Chunked.follows_iff (hchunked : Chunked schema name count) {k : ℕ} {sub : SchemaSub} :
    schema.Follows [nameSub name, textSub "b"] (lastSub k) sub ↔
    ∃ i < count, k ≤ i ∧ sub = numberSub i := by
  rw [Global.Follows, hchunked.hasData_iff]
  constructor
  · rintro ⟨⟨i, hi, rfl⟩, hafter⟩
    refine ⟨i, hi, ?_, rfl⟩
    cases k with
    | zero => omega
    | succ k => exact numberSub_lt.mp (hafter (numberSub k) rfl)
  · rintro ⟨i, hi, hk, rfl⟩
    refine ⟨⟨i, hi, rfl⟩, ?_⟩
    intro last hlast
    cases k with
    | zero => simp [lastSub] at hlast
    | succ k =>
      have heq : numberSub k = last := by simpa [lastSub] using hlast
      rw [← heq, numberSub_lt]
      omega

/-- A loop over the chunks of a table takes them in order. -/
theorem Chunked.forOrder_eq (hchunked : Chunked schema name count) {S : Type*}
    (body : SchemaSub → S → S) (init : S) : forOrder (fun _ => schema) [nameSub name,
    textSub "b"] body (schema.nodes.length + 1) none init =
    some ((List.range count).foldl (fun s i => body (numberSub i) s) init) := by
  obtain ⟨later, last, hloop, ⟨k, hk, hlater, hlast⟩, hend⟩ :
      ∃ later last, forOrder (fun _ => schema) [nameSub name, textSub "b"] body
      (schema.nodes.length + 1) none init = some later ∧ (∃ k ≤ count,
      later = (List.range k).foldl (fun s i => body (numberSub i) s) init ∧ last = lastSub k) ∧
      ∀ sub, ¬ schema.Follows [nameSub name, textSub "b"] last sub := by
    apply forOrder_rule fun after state => ∃ k ≤ count,
      state = (List.range k).foldl (fun s i => body (numberSub i) s) init ∧ after = lastSub k
    · rintro after state sub ⟨k, hk, rfl, rfl⟩ horder
      have hleast := order_eq_some_iff.mp horder
      obtain ⟨i, hi, hki, rfl⟩ := hchunked.follows_iff.mp hleast.1
      have hle : numberSub i ≤ numberSub k := hleast.2
        (hchunked.follows_iff.mpr ⟨k, by omega, Nat.le_refl _, rfl⟩)
      have heq : i = k := by
        have := numberSub_le.mp hle
        omega
      subst heq
      refine ⟨⟨i + 1, hi, ?_, rfl⟩, fun next hnext => hnext⟩
      rw [range_succ, foldl_append]
      rfl
    · exact ⟨0, Nat.zero_le _, rfl, rfl⟩
    · exact Nat.lt_succ_of_le (card_remaining_le _ _ _)
  have hcount : k = count := by
    by_contra hne
    apply hend (numberSub k)
    rw [hlast]
    exact hchunked.follows_iff.mpr ⟨k, by omega, Nat.le_refl _, rfl⟩
  rw [hloop, hlater, hcount]

/-- The buffer of all chunks of a table. -/
def assembled (schema : Schema) (name : TableName) (count : ℕ) : List UInt8 :=
  (List.range count).flatMap fun i =>
    padded ((schema.get (chunkPath name i)).getD [])

theorem foldl_append_eq_flatMap {α β : Type*} (f : α → List β) (xs : List α) (init : List β) :
    xs.foldl (fun acc x => acc ++ f x) init = init ++ xs.flatMap f := by
  induction xs generalizing init with
  | nil => simp
  | cons x rest ih => simp [ih]

theorem Chunked.loadTable_eq (hchunked : Chunked schema name count) :
    loadTable schema name = some (if count = 0 then none
        else some (assembled schema name count)) := by
  have hcount : (List.range count).foldl (fun n _ => n + 1) 0 = count := by
    simp
  simp only [loadTable, hchunked.forOrder_eq, Option.bind_eq_bind, Option.bind_some, hcount]
  split_ifs with hzero
  · rfl
  · rw [foldl_append_eq_flatMap]
    rfl

theorem length_padded {chunk : List UInt8} (hchunk : chunk.length ≤ maxStrConst) :
    (padded chunk).length = maxStrConst := by
  rw [padded, length_append, length_replicate]
  omega

theorem Chunked.length_assembled (hchunked : Chunked schema name count) :
    (assembled schema name count).length = count * maxStrConst := by
  have hlength : ∀ k ≤ count, (assembled schema name k).length = k * maxStrConst := by
    intro k hk
    induction k with
    | zero => simp [assembled]
    | succ k ih =>
      obtain ⟨chunk, hchunk, hshort⟩ := hchunked.chunk k (by omega)
      have hprevious := ih (by omega)
      rw [assembled] at hprevious ⊢
      rw [range_succ, flatMap_append, length_append, hprevious, Nat.add_mul, Nat.one_mul]
      simp [hchunk, length_padded hshort]
  exact hlength count (Nat.le_refl _)

/-- The buffer starts with the bytes, even if chunks of longer ones follow. -/
theorem Chunked.assembled_starts (hchunked : Chunked schema name count)
    (hbytes : ChunksOf schema name bytes) : bytes <+: assembled schema name count := by
  have hfrom : ∀ k i, i + k = count → bytes.drop (i * maxStrConst) <+:
      (List.range' i k).flatMap fun j =>
        padded ((schema.get (chunkPath name j)).getD []) := by
    intro k
    induction k with
    | zero =>
      intro i hi
      have hlong : bytes.length ≤ i * maxStrConst := by
        by_contra hlt
        have hget := hbytes i (by omega)
        obtain ⟨j, hj, hpath⟩ := hchunked.only _ ⟨[numberSub i], rfl⟩
          (by rw [← chunkPath_eq, hget]; rfl)
        have := (chunkPath_inj hpath).2
        omega
      rw [drop_eq_nil_of_le hlong]
      exact nil_prefix
    | succ k ih =>
      intro i hi
      rw [range'_succ, flatMap_cons]
      by_cases hlong : bytes.length ≤ i * maxStrConst
      · rw [drop_eq_nil_of_le hlong]
        exact nil_prefix
      · have hget := hbytes i (by omega)
        have hnext := ih (i + 1) (by omega)
        rw [Nat.add_mul, Nat.one_mul, ← drop_drop] at hnext
        rw [hget, Option.getD_some, chunkAt]
        obtain ⟨left, hleft⟩ : ∃ left, left = bytes.drop (i * maxStrConst) := ⟨_, rfl⟩
        rw [← hleft] at hnext ⊢
        by_cases hshort : left.length ≤ maxStrConst
        · rw [take_of_length_le hshort, padded, append_assoc]
          exact prefix_append _ _
        · have htake : (left.take maxStrConst).length = maxStrConst := by
            rw [length_take]
            omega
          rw [padded, htake, Nat.sub_self, replicate_zero, append_nil]
          nth_rewrite 1 [← take_append_drop maxStrConst left]
          exact (prefix_append_right_inj _).mpr hnext
  have hall := hfrom count 0 (by omega)
  rw [assembled, range_eq_range']
  simpa using hall

theorem Chunked.congr {schema' : Schema} (hchunked : Chunked schema name count)
    (hsame : ∀ path, [nameSub name, textSub "b"] <+: path →
      schema'.get path = schema.get path) : Chunked schema' name count where
  only path hpath hsome :=
    hchunked.only path hpath (by rw [← hsame path hpath]; exact hsome)
  chunk i hi := by
    rw [hsame (chunkPath name i) ⟨[numberSub i], rfl⟩]
    exact hchunked.chunk i hi
  short := hchunked.short

theorem ChunksOf.congr {schema' : Schema} (hbytes : ChunksOf schema name bytes)
    (hsame : ∀ path, [nameSub name, textSub "b"] <+: path →
      schema'.get path = schema.get path) : ChunksOf schema' name bytes := by
  intro i hi
  rw [hsame (chunkPath name i) ⟨[numberSub i], rfl⟩]
  exact hbytes i hi

end Chunks

section Statements

variable {name other : TableName} {p : Process} {text bytes : List UInt8}

variable {path : List SchemaSub}

/-- CREATE TABLE sets the chunks of its bytes and changes no other chunk. -/
theorem get_createTable (name : TableName) (text bytes : List UInt8) (p : Process)
    (hpath : [nameSub other, textSub "b"] <+: path) :
    (∃ i, path = chunkPath name i ∧ i * maxStrConst < bytes.length ∧
    (createTable name text bytes p).schema.get path = some (chunkAt bytes i)) ∨
    (∀ i, path = chunkPath name i → bytes.length ≤ i * maxStrConst) ∧
    (createTable name text bytes p).schema.get path = p.schema.get path := by
  obtain ⟨tail, rfl⟩ := hpath
  have hlast : [nameSub other, textSub "b"] ++ tail ≠ [nameSub name, textSub "l"] := by
    simp [textSub]
  have hfirst : [nameSub other, textSub "b"] ++ tail ≠ [nameSub name, textSub "t"] := by
    simp [textSub]
  rw [createTable]
  simp only [get_set_ne _ _ hlast]
  have hchunks := get_writeChunks name 0
    (p.schema.set [nameSub name, textSub "t"] text) (Nat.le_refl bytes.length)
    ([nameSub other, textSub "b"] ++ tail)
  simpa only [Nat.zero_add, get_set_ne _ _ hfirst] using hchunks

def chunkCount (bytes : List UInt8) : ℕ :=
  (bytes.length + (maxStrConst - 1)) / maxStrConst

theorem lt_chunkCount_iff {i : ℕ} : i < chunkCount bytes ↔ i * maxStrConst < bytes.length := by
  simp only [chunkCount, maxStrConst]
  omega

theorem Chunked.createTable {count : ℕ} (hchunked : Chunked p.schema name count)
    (hshort : bytes.length < 2 ^ 31) : Chunked (createTable name text bytes p).schema name
    (max count (chunkCount bytes)) ∧
    ChunksOf (Octo.createTable name text bytes p).schema name bytes := by
  have hbytes : ChunksOf (Octo.createTable name text bytes p).schema name
      bytes := by
    intro i hi
    rcases get_createTable name text bytes p (⟨[numberSub i], rfl⟩ : _ <+: chunkPath name i) with
      ⟨j, hpath, _, hget⟩ | ⟨hpath, _⟩
    · rw [hget, (chunkPath_inj hpath).2]
    · have := hpath i rfl
      omega
  refine ⟨⟨?_, ?_, ?_⟩, hbytes⟩
  · intro path hpath hsome
    rcases get_createTable name text bytes p hpath with ⟨j, rfl, hj, _⟩ | ⟨_, hget⟩
    · exact ⟨j, lt_max_of_lt_right (lt_chunkCount_iff.mpr hj), rfl⟩
    · rw [hget] at hsome
      obtain ⟨i, hi, heq⟩ := hchunked.only path hpath hsome
      exact ⟨i, lt_max_of_lt_left hi, heq⟩
  · intro i hi
    by_cases hnew : i * maxStrConst < bytes.length
    · refine ⟨chunkAt bytes i, hbytes i hnew, ?_⟩
      rw [chunkAt, length_take]
      omega
    · rcases get_createTable name text bytes p
          (⟨[numberSub i], rfl⟩ : _ <+: chunkPath name i) with ⟨j, hpath, hj, _⟩ | ⟨_, hget⟩
      · rw [(chunkPath_inj hpath).2] at hnew
        exact absurd hj hnew
      · rw [hget]
        apply hchunked.chunk i
        rcases lt_max_iff.mp hi with hold | hcount
        · exact hold
        · exact absurd (lt_chunkCount_iff.mp hcount) hnew
  · have hold := hchunked.short
    have hcount : chunkCount bytes * maxStrConst < 2 ^ 31 + maxStrConst := by
      simp only [chunkCount, maxStrConst]
      omega
    rcases max_choice count (chunkCount bytes) with hmax | hmax
    · rw [hmax]
      exact hold
    · rw [hmax]
      exact hcount

/-- The chunks of other tables stay. -/
theorem createTable_other (hne : other ≠ name) (hpath : [nameSub other, textSub "b"] <+: path) :
    (createTable name text bytes p).schema.get path = p.schema.get path := by
  rcases get_createTable name text bytes p hpath with ⟨j, rfl, _, _⟩ | ⟨_, hget⟩
  · obtain ⟨tail, htail⟩ := hpath
    have hsame : other = name := by
      simpa [chunkPath, nameSub] using congrArg List.head? htail
    exact absurd hsame hne
  · exact hget

theorem dropTable_chunked : Chunked (dropTable name p).schema name 0 where
  only path hpath hsome := by
    obtain ⟨tail, rfl⟩ := hpath
    have hgone : (dropTable name p).schema.get ([nameSub name, textSub "b"] ++ tail) = none := by
      rw [dropTable, Global.get_kill, if_pos ⟨textSub "b" :: tail, rfl⟩]
    rw [hgone] at hsome
    exact absurd hsome (by simp)
  chunk i hi := absurd hi (Nat.not_lt_zero i)
  short := by decide

theorem dropTable_other (hne : other ≠ name) (hpath : [nameSub other, textSub "b"] <+: path) :
    (dropTable name p).schema.get path = p.schema.get path := by
  rw [dropTable, get_kill, if_neg]
  rintro ⟨tail, htail⟩
  obtain ⟨tail', htail'⟩ := hpath
  have hsame : other = name := by
    simpa [nameSub] using congrArg List.head? (htail'.trans htail.symm)
  exact hne hsame

end Statements

end Octo
