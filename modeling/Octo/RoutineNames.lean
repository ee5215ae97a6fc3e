/-
The names of generated routines.  A name is a mark for the kind of the routine
and the base-62 digits of a hash.  Two names are different where the hashes
are; the hash of a cross reference, though, is not fed the whole name of its
column.
-/
import Octo.MessageBytes

namespace Octo

open List

open MessageBytes (CString)

/-- `ydb_uint16`: a hash of 128 bits. -/
@[ext]
structure Hash128 where
  one : UInt64
  two : UInt64
deriving DecidableEq

def base62Chars : List Char :=
  "0123456789ABCDEFGHIJKLMNOPQRSTUVWXYZabcdefghijklmnopqrstuvwxyz".toList

def base62Digit (n : ℕ) : Char := base62Chars.getD (n % 62) '0'

/-- The loop of `ydb_hash_to_string`, which always writes two digits. -/
def hashDigits : ℕ → ℕ → ℕ → List Char
  | 0, _, _ => []
  | 1, hashone, hashtwo => [base62Digit hashone, base62Digit hashtwo]
  | bufLen + 2, hashone, hashtwo =>
    base62Digit hashone :: base62Digit hashtwo :: hashDigits bufLen (hashone / 62) (hashtwo / 62)

def ydbHashToString (hash : Hash128) (bufLen : ℕ) : List Char :=
  hashDigits bufLen hash.one.toNat hash.two.toNat

inductive FileType
  | crossReference | outputPlan
deriving DecidableEq

def FileType.mark : FileType → List Char
  | .crossReference => "%ydboctoX".toList
  | .outputPlan => "%ydboctoP".toList

def maxRoutineLen : ℕ := 31

/-- `generate_routine_name`, for a state whose hash is computed. -/
def generateRoutineName (type : FileType) (hash : Hash128) : List Char :=
  type.mark ++ ydbHashToString hash (maxRoutineLen - type.mark.length)

section Digits

theorem base62Digit_mod_inj {m n : ℕ} (h : base62Digit m = base62Digit n) : m % 62 = n % 62 := by
  have hinj : ∀ i j : Fin 62, base62Chars.getD i '0' = base62Chars.getD j '0' →
      i = j := by decide +kernel
  have hm := hinj ⟨m % 62, Nat.mod_lt _ (by decide)⟩ ⟨n % 62, Nat.mod_lt _ (by decide)⟩ h
  exact congrArg Fin.val hm

theorem isAlphanum_base62Digit (n : ℕ) : (base62Digit n).isAlphanum := by
  have hall : ∀ i : Fin 62, (base62Chars.getD i '0').isAlphanum := by
    decide +kernel
  exact hall ⟨n % 62, Nat.mod_lt _ (by decide)⟩

/-- The digits of a number, as far as they are written, give it back. -/
theorem mod_pow_of_hashDigits {k a b c d : ℕ}
    (h : hashDigits (2 * k) a b = hashDigits (2 * k) c d) :
    a % 62 ^ k = c % 62 ^ k ∧ b % 62 ^ k = d % 62 ^ k := by
  induction k generalizing a b c d with
  | zero => simp [Nat.mod_one]
  | succ k ih =>
    simp only [Nat.mul_succ, hashDigits, cons.injEq] at h
    obtain ⟨hone, htwo, hrest⟩ := h
    obtain ⟨hac, hbd⟩ := ih hrest
    simp only [pow_succ', Nat.mod_mul]
    rw [base62Digit_mod_inj hone, base62Digit_mod_inj htwo, hac, hbd]
    exact ⟨rfl, rfl⟩

theorem length_hashDigits (k a b : ℕ) : (hashDigits (2 * k) a b).length = 2 * k := by
  induction k generalizing a b with
  | zero => rfl
  | succ k ih => simp [Nat.mul_succ, hashDigits, ih]

theorem isAlphanum_of_mem_hashDigits {k a b : ℕ} {c : Char}
    (hc : c ∈ hashDigits (2 * k) a b) : c.isAlphanum := by
  induction k generalizing a b with
  | zero => cases hc
  | succ k ih =>
    simp only [Nat.mul_succ, hashDigits, mem_cons] at hc
    rcases hc with rfl | rfl | hc
    · exact isAlphanum_base62Digit a
    · exact isAlphanum_base62Digit b
    · exact ih hc

/-- Eleven digits are enough for a half of the hash. -/
theorem ydbHashToString_injective {hash hash' : Hash128}
    (h : ydbHashToString hash 22 = ydbHashToString hash' 22) : hash = hash' := by
  obtain ⟨hone, htwo⟩ := @mod_pow_of_hashDigits 11 _ _ _ _ h
  have hlt : ∀ n : UInt64, n.toNat % 62 ^ 11 = n.toNat := by
    intro n
    apply Nat.mod_eq_of_lt
    have hn := n.toNat_lt
    omega
  rw [hlt, hlt] at hone htwo
  ext1
  · exact UInt64.toNat_inj.mp hone
  · exact UInt64.toNat_inj.mp htwo

end Digits

theorem FileType.length_mark (type : FileType) : type.mark.length = 9 := by
  cases type <;> decide

theorem generateRoutineName_eq (type : FileType) (hash : Hash128) :
    generateRoutineName type hash = type.mark ++ ydbHashToString hash 22 := by
  rw [generateRoutineName, type.length_mark, maxRoutineLen]

theorem FileType.mark_eq (type : FileType) :
    ∃ letters, type.mark = '%' :: letters ∧ ∀ c ∈ letters, c.isAlphanum := by
  cases type with
  | crossReference => exact ⟨"ydboctoX".toList, by decide, by simp⟩
  | outputPlan => exact ⟨"ydboctoP".toList, by decide, by simp⟩

/-- Names are `%` and 30 letters or digits, the two kinds of routines have no
name in common, and one name of a kind is the name for one hash. -/
theorem generateRoutineName_correct (type type' : FileType) (hash hash' : Hash128) :
    (∃ rest, generateRoutineName type hash = '%' :: rest ∧ rest.length = 30 ∧
        ∀ c ∈ rest, c.isAlphanum) ∧
      (generateRoutineName type hash = generateRoutineName type' hash' ↔
        type = type' ∧ hash = hash') := by
  constructor
  · obtain ⟨letters, hmark, hletters⟩ := type.mark_eq
    have hlength := type.length_mark
    rw [hmark, length_cons] at hlength
    refine ⟨letters ++ ydbHashToString hash 22, ?_, ?_, ?_⟩
    · rw [generateRoutineName_eq, hmark, cons_append]
    · rw [length_append, ydbHashToString, length_hashDigits 11]
      omega
    · intro c hc
      rcases mem_append.mp hc with hmem | hmem
      · exact hletters c hmem
      · exact @isAlphanum_of_mem_hashDigits 11 _ _ _ hmem
  · constructor
    · intro hsame
      rw [generateRoutineName_eq, generateRoutineName_eq] at hsame
      have hlength := type.length_mark.trans type'.length_mark.symm
      obtain ⟨hmark, hdigits⟩ := append_inj hsame hlength
      refine ⟨?_, ydbHashToString_injective hdigits⟩
      revert hmark
      cases type <;> cases type' <;> decide
    · rintro ⟨rfl, rfl⟩
      rfl

/-- What is fed to the hash for the cross reference of a column: the length of
the second text is that of the first.  None if it is more than the name of the
column has. -/
def xrefBytes (tableName columnName : CString) : Option (List UInt8) :=
  if tableName.text.length ≤ columnName.text.length then
    some (tableName.text ++ columnName.text.take tableName.text.length)
  else none

/-- Two cross references are told apart, and only their names are read, exactly
if no table has a longer name than its column and, where the tables have one
name, the columns differ in as many bytes from their start. -/
theorem xrefBytes_separates_iff (table table' column column' : CString) :
    ((xrefBytes table column).isSome ∧ (xrefBytes table' column').isSome ∧
    xrefBytes table column ≠ xrefBytes table' column') ↔ table.text.length ≤ column.text.length ∧
    table'.text.length ≤ column'.text.length ∧
    (table.text = table'.text → column.text.take table.text.length ≠
    column'.text.take table'.text.length) := by
  have hsome : ∀ table column : CString, (xrefBytes table column).isSome ↔
      table.text.length ≤ column.text.length := by
    intro table column
    unfold xrefBytes
    split_ifs with hle <;> simp [hle]
  rw [hsome, hsome]
  refine and_congr_right fun hle => and_congr_right fun hle' => ?_
  rw [xrefBytes, xrefBytes, if_pos hle, if_pos hle', ← not_and, not_iff_not, Option.some.injEq]
  constructor
  · intro hsame
    have hlength := congrArg List.length hsame
    rw [length_append, length_append, length_take_of_le hle, length_take_of_le hle'] at hlength
    exact append_inj hsame (by omega)
  · rintro ⟨htable, hcolumn⟩
    rw [htable] at hcolumn ⊢
    rw [hcolumn]

/-- The columns IDX and IDY of a table AB have one routine. -/
theorem columns_share_routine : ∃ table column column' : CString, column.text ≠ column'.text ∧
    xrefBytes table column = xrefBytes table column' :=
  ⟨⟨[65, 66], by decide⟩, ⟨[73, 68, 88], by decide⟩, ⟨[73, 68, 89], by decide⟩,
    by decide, by decide⟩

end Octo
