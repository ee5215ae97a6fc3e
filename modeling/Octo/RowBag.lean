/-
Bags of rows.  The operations that SQL has on results with duplicates act on
each row by itself, so that an identity between bags is an identity between
numbers of copies.
-/
import Mathlib.Data.Multiset.Dedup
import Mathlib.Data.Multiset.Replicate

namespace RowBag

open Multiset

/-- The operations of bags; `distinct` leaves one copy of each row. -/
class Bag (α : Type*) where
  add : α → α → α
  sub : α → α → α
  inter : α → α → α
  distinct : α → α

/-- The number of copies of one row. -/
instance : Bag ℕ where
  add := (· + ·)
  sub := (· - ·)
  inter := min
  distinct := min 1

instance {ρ : Type*} [DecidableEq ρ] : Bag (Multiset ρ) where
  add := (· + ·)
  sub := (· - ·)
  inter := (· ∩ ·)
  distinct := Multiset.dedup

@[simp] theorem add_nat (a b : ℕ) : Bag.add a b = a + b := rfl

@[simp] theorem sub_nat (a b : ℕ) : Bag.sub a b = a - b := rfl

@[simp] theorem inter_nat (a b : ℕ) : Bag.inter a b = min a b := rfl

@[simp] theorem distinct_nat (a : ℕ) : Bag.distinct a = min 1 a := rfl

/-- Maps that keep the operations. -/
structure IsBagHom {α β : Type*} [Bag α] [Bag β] (f : α → β) : Prop where
  map_add : ∀ a b, f (Bag.add a b) = Bag.add (f a) (f b)
  map_sub : ∀ a b, f (Bag.sub a b) = Bag.sub (f a) (f b)
  map_inter : ∀ a b, f (Bag.inter a b) = Bag.inter (f a) (f b)
  map_distinct : ∀ a, f (Bag.distinct a) = Bag.distinct (f a)

variable {α ρ : Type*}

theorem count_isBagHom [DecidableEq ρ] (row : ρ) : IsBagHom (Multiset.count row) where
  map_add a b := count_add row a b
  map_sub a b := count_sub row a b
  map_inter a b := count_inter row a b
  map_distinct a := by
    change Multiset.count row a.dedup = min 1 (Multiset.count row a)
    by_cases hrow : row ∈ a
    · have hpos := count_pos.mpr hrow
      rw [count_dedup, if_pos hrow]
      omega
    · rw [count_dedup, if_neg hrow, count_eq_zero.mpr hrow]
      rfl

/-- `a`, with one copy of each row if `single` is set. -/
def capIf {α : Type*} [Bag α] (single : Bool) (a : α) : α :=
  if single then Bag.distinct a else a

@[simp] theorem capIf_false [Bag α] (a : α) : capIf false a = a := rfl

@[simp] theorem capIf_true_nat (a : ℕ) : capIf true a = min 1 a := rfl

@[simp] theorem capIf_true_multiset [DecidableEq ρ] (a : Multiset ρ) : capIf true a = a.dedup := rfl

theorem capIf_nat (single : Bool) (a : ℕ) : capIf single a = if single then min 1 a else a := rfl

theorem IsBagHom.map_capIf {β : Type*} [Bag α] [Bag β] {f : α → β} (hf : IsBagHom f) (single : Bool)
    (a : α) : f (capIf single a) = capIf single (f a) := by
  cases single
  · rfl
  · exact hf.map_distinct a

theorem capIf_pos (single : Bool) (a : ℕ) : 0 < capIf single a ↔ 0 < a := by
  cases single <;> simp [capIf_nat]

theorem capIf_le (single : Bool) (a : ℕ) : capIf single a ≤ a := by
  cases single <;> simp [capIf_nat]

end RowBag
