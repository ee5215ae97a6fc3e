/-
The memory around a message, addressed by the distance from its first byte.  A
reader whose position may move backwards can leave the message at either end.
-/
import Octo.MessageBytes

namespace MessageBytes

open List

/-- The byte at each distance from the first byte of a message. -/
abbrev Memory := ℤ → UInt8

namespace Memory

/-- The bytes stand at a position. -/
def Holds (mem : Memory) (p : ℤ) (bytes : List UInt8) : Prop :=
  ∀ i (hi : i < bytes.length), mem (p + i) = bytes[i]

def read (mem : Memory) (width : ℕ) (p : ℤ) : List UInt8 :=
  (List.range width).map fun i : ℕ => mem (p + i)

/-- The number in network order at a position. -/
def load (mem : Memory) (width : ℕ) (p : ℤ) : ℕ := number (mem.read width p)

def swap (mem : Memory) (p : ℤ) : Memory := fun q =>
  if q = p then mem (p + 1) else if q = p + 1 then mem p else mem q

/-- As many pairs of bytes exchanged, one behind the other. -/
def swaps (mem : Memory) (p : ℤ) : ℕ → Memory
  | 0 => mem
  | n + 1 => swaps (mem.swap p) (p + 2) n

variable {mem : Memory} {p : ℤ} {bytes bytes' : List UInt8}

section Contents

theorem holds_nil : mem.Holds p [] := fun _ hi => absurd hi (Nat.not_lt_zero _)

theorem holds_append : mem.Holds p (bytes ++ bytes') ↔
      mem.Holds p bytes ∧ mem.Holds (p + bytes.length) bytes' := by
  constructor
  · intro h
    constructor
    · intro i hi
      rw [h i (by rw [length_append]; omega), getElem_append_left hi]
    · intro i hi
      have hbyte := h (bytes.length + i) (by rw [length_append]; omega)
      simpa [add_assoc] using hbyte
  · rintro ⟨hfront, hback⟩ i hi
    rcases Nat.lt_or_ge i bytes.length with hlt | hge
    · rw [getElem_append_left hlt]
      exact hfront i hlt
    · obtain ⟨j, rfl⟩ := Nat.exists_eq_add_of_le hge
      rw [length_append] at hi
      have hbyte := hback j (by omega)
      simpa [add_assoc] using hbyte

theorem length_read (width : ℕ) : (mem.read width p).length = width := by
  simp [read]

theorem holds_read (width : ℕ) : mem.Holds p (mem.read width p) := by
  intro i hi
  simp [read]

/-- What stands at a position is determined by its length. -/
theorem Holds.ext (h : mem.Holds p bytes) (h' : mem.Holds p bytes')
    (hlength : bytes.length = bytes'.length) : bytes = bytes' := by
  apply ext_getElem hlength
  intro i hi hi'
  rw [← h i hi, h' i hi']

theorem Holds.load_eq {width : ℕ} (h : mem.Holds p bytes)
    (hlength : bytes.length = width) : mem.load width p = number bytes := by
  rw [load, h.ext (holds_read width) (by rw [hlength, length_read])]

theorem holds_bigEndian_load (width : ℕ) : mem.Holds p (bigEndian width (mem.load width p)) := by
  rw [load, bigEndian_number (length_read width)]
  exact holds_read width

/-- Only the bytes themselves matter. -/
theorem Holds.congr {mem' : Memory} (h : mem.Holds p bytes)
    (hsame : ∀ q, p ≤ q → q < p + bytes.length → mem' q = mem q) : mem'.Holds p bytes := by
  intro i hi
  rw [hsame (p + i) (by omega) (by omega)]
  exact h i hi

end Contents

section Swaps

theorem swaps_of_outside {q : ℤ} {n : ℕ} (hq : q < p ∨ p + 2 * n ≤ q) :
    mem.swaps p n q = mem q := by
  induction n generalizing mem p with
  | zero => rfl
  | succ n ih =>
    rw [swaps, ih (by omega), swap, if_neg (by omega), if_neg (by omega)]

theorem holds_swaps_iff {q : ℤ} {n : ℕ} (hq : q + bytes.length ≤ p ∨ p + 2 * n ≤ q) :
    (mem.swaps p n).Holds q bytes ↔ mem.Holds q bytes := by
  have hsame : ∀ r, q ≤ r → r < q + bytes.length →
      mem.swaps p n r = mem r := fun r hr hlt => swaps_of_outside (by omega)
  exact ⟨fun h => h.congr fun r hr hlt => (hsame r hr hlt).symm, fun h => h.congr hsame⟩

/-- Pairs that are exchanged. -/
theorem holds_swaps {α : Type*} {first second : α → UInt8} {pairs : List α}
    (h : mem.Holds p (pairs.flatMap fun x => [first x, second x])) :
    (mem.swaps p pairs.length).Holds p (pairs.flatMap fun x => [second x, first x]) := by
  induction pairs generalizing mem p with
  | nil => exact holds_nil
  | cons x pairs ih =>
    rw [flatMap_cons, holds_append] at h ⊢
    rw [length_cons, swaps]
    have hfirst : mem p = first x := by
      simpa using h.1 0 (by simp)
    have hsecond : mem (p + 1) = second x := by
      simpa using h.1 1 (by simp)
    constructor
    · intro i hi
      rw [swaps_of_outside (by simp at hi; omega)]
      obtain rfl | rfl : i = 0 ∨ i = 1 := by
        simp at hi
        omega
      · simp [swap, hsecond]
      · simp [swap, hfirst]
    · refine ih (h.2.congr fun q hq _ => ?_)
      have hpos : p + 2 ≤ q := by simpa using hq
      rw [swap, if_neg (by omega), if_neg (by omega)]

end Swaps

end Memory

/-- A number of two's complement. -/
def signed (width n : ℕ) : ℤ :=
  if 2 * n < 256 ^ width then n else n - 256 ^ width

variable {n width : ℕ}

theorem signed_of_lt (h : 2 * n < 256 ^ width) : signed width n = n :=
  if_pos h

theorem signed_nonneg_iff (hn : n < 256 ^ width) : 0 ≤ signed width n ↔ 2 * n < 256 ^ width := by
  unfold signed
  split_ifs with h
  · exact iff_of_true (Int.natCast_nonneg n) h
  · have hcast : (n : ℤ) < 256 ^ width := by exact_mod_cast hn
    exact iff_of_false (by omega) h

/-- The first byte has the sign. -/
theorem Memory.signed_load_neg {mem : Memory} {p : ℤ} (hbyte : 128 ≤ (mem p).toNat) :
    signed (width + 1) (mem.load (width + 1) p) < 0 := by
  have hread : mem.read (width + 1) p = mem p :: mem.read width (p + 1) := by
    rw [read, range_succ_eq_map, map_cons, map_map]
    congr 1
    · simp
    · apply map_congr_left
      intro i _
      simp only [Function.comp_apply, Nat.cast_succ]
      congr 1
      omega
  have hle := le_number_cons (mem p) (mem.read width (p + 1))
  have hlt := number_lt (mem.read (width + 1) p)
  rw [length_read] at hle hlt
  rw [← not_le, load, signed_nonneg_iff hlt, not_lt, hread, pow_succ]
  calc 256 ^ width * 256 = 2 * (128 * 256 ^ width) := by ring
    _ ≤ 2 * ((mem p).toNat * 256 ^ width) := by gcongr
    _ ≤ 2 * number (mem p :: mem.read width (p + 1)) := by omega

end MessageBytes
