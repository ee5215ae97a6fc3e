/-
Byte-addressed memory.  Numbers are stored with the low byte first, strings
end with a zero byte, and a relative pointer holds the distance from its own
address to the target.
-/
import Mathlib.Order.Interval.Set.Basic
import Mathlib.Tactic.Ring

namespace ByteMemory

open List

abbrev Memory := ℕ → UInt8

def load (mem : Memory) : ℕ → ℕ → ℕ
  | 0, _ => 0
  | width + 1, addr => (mem addr).toNat + 256 * load mem width (addr + 1)

/-- The value is cut to the width of the field. -/
def store (mem : Memory) : ℕ → ℕ → ℕ → Memory
  | 0, _, _ => mem
  | width + 1, addr, value => fun a =>
    if a = addr then UInt8.ofNat value
    else store mem width (addr + 1) (value / 256) a

/-- `memcpy` of ranges that do not overlap. -/
def copy (mem : Memory) (target source length : ℕ) : Memory := fun a =>
  if target ≤ a ∧ a < target + length then mem (source + (a - target))
  else mem a

/-- The length of the string at an address; none if no end is found. -/
def strlen (mem : Memory) : ℕ → ℕ → Option ℕ
  | 0, _ => none
  | fuel + 1, addr =>
    if mem addr = 0 then some 0
    else (strlen mem fuel (addr + 1)).map (· + 1)

/-- Store a pointer to `target` relative to the field itself. -/
def storeRelative (mem : Memory) (field target : ℕ) : Memory :=
  store mem 8 field (target + 2 ^ 64 - field)

/-- The address that a relative pointer stands for. -/
def relativeTarget (mem : Memory) (field : ℕ) : ℕ :=
  (field + load mem 8 field) % 2 ^ 64

section Fields

variable {mem mem' : Memory}

variable {a addr addr' length source target value width : ℕ}

theorem store_apply (ha : a < addr ∨ addr + width ≤ a) : store mem width addr value a = mem a := by
  induction width generalizing addr value with
  | zero => rfl
  | succ width ih =>
    have hne : a ≠ addr := by omega
    simp only [store, if_neg hne]
    exact ih (by omega)

theorem load_congr (hsame : Set.EqOn mem mem' (Set.Ico addr (addr + width))) :
    load mem width addr = load mem' width addr := by
  induction width generalizing addr with
  | zero => rfl
  | succ width ih =>
    have hhead : mem addr = mem' addr := hsame ⟨by omega, by omega⟩
    have htail : load mem width (addr + 1) = load mem' width (addr + 1) := by
      apply ih
      intro a ha
      exact hsame ⟨by have := ha.1; omega, by have := ha.2; omega⟩
    rw [load, load, hhead, htail]

theorem load_store_of_disjoint {width' : ℕ}
    (hdisjoint : addr' + width' ≤ addr ∨ addr + width ≤ addr') :
    load (store mem width addr value) width' addr' = load mem width' addr' := by
  apply load_congr
  intro a ha
  apply store_apply
  have hlow := ha.1
  have hhigh := ha.2
  omega

theorem load_store (width addr value : ℕ) :
    load (store mem width addr value) width addr = value % 256 ^ width := by
  induction width generalizing addr value with
  | zero => simp [load, Nat.mod_one]
  | succ width ih =>
    have htail : load (store mem (width + 1) addr value) width (addr + 1) =
        load (store mem width (addr + 1) (value / 256)) width (addr + 1) := by
      apply load_congr
      intro a ha
      have hne : a ≠ addr := by
        have := ha.1
        omega
      simp [store, if_neg hne]
    have hhead : store mem (width + 1) addr value addr = UInt8.ofNat value := by
      simp only [store, if_true]
    rw [load, htail, ih, hhead, Nat.pow_succ', Nat.mod_mul]
    simp

theorem copy_apply (ha : a < target ∨ target + length ≤ a) :
    copy mem target source length a = mem a := by
  rw [copy, if_neg (by omega)]

theorem copy_apply_add {i : ℕ} (hi : i < length) :
    copy mem target source length (target + i) = mem (source + i) := by
  rw [copy, if_pos (by omega), Nat.add_sub_cancel_left]

/-- A field that was copied with its surroundings. -/
theorem load_shift (hsame : ∀ i < width, mem' (addr' + i) = mem (addr + i)) :
    load mem' width addr' = load mem width addr := by
  induction width generalizing addr addr' with
  | zero => rfl
  | succ width ih =>
    have hhead : mem' addr' = mem addr := hsame 0 (by omega)
    have htail : load mem' width (addr' + 1) = load mem width (addr + 1) := by
      apply ih
      intro i hi
      have := hsame (i + 1) (by omega)
      rwa [Nat.add_comm i 1, ← Nat.add_assoc, ← Nat.add_assoc] at this
    rw [load, load, hhead, htail]

end Fields

/-- The field points to `target` relative to itself. -/
def Relative (mem : Memory) (field target : ℕ) : Prop :=
  field < target ∧ load mem 8 field = target - field

section Relative

variable {mem mem' : Memory} {field target : ℕ}

theorem Relative.congr (hrel : Relative mem field target)
    (hsame : Set.EqOn mem mem' (Set.Ico field (field + 8))) : Relative mem' field target :=
  ⟨hrel.1, by rw [← load_congr hsame, hrel.2]⟩

theorem relative_storeRelative (hlt : field < target) (hbound : target < 2 ^ 64) :
    Relative (storeRelative mem field target) field target := by
  constructor
  · exact hlt
  · have hvalue : target + 2 ^ 64 - field = (target - field) + 2 ^ 64 := by
      omega
    rw [storeRelative, load_store, hvalue]
    omega

theorem Relative.target_eq (hrel : Relative mem field target)
    (hbound : target < 2 ^ 64) : relativeTarget mem field = target := by
  rw [relativeTarget, hrel.2, Nat.add_sub_cancel' hrel.1.le, Nat.mod_eq_of_lt hbound]

theorem Relative.ne_zero (hrel : Relative mem field target) : load mem 8 field ≠ 0 := by
  have hlt := hrel.1
  rw [hrel.2]
  omega

end Relative

def StringAt (mem : Memory) : ℕ → List UInt8 → Prop
  | addr, [] => mem addr = 0
  | addr, c :: text => c ≠ 0 ∧ mem addr = c ∧ StringAt mem (addr + 1) text

instance decidableStringAt (mem : Memory) :
    (addr : ℕ) → (text : List UInt8) → Decidable (StringAt mem addr text)
  | addr, [] => inferInstanceAs (Decidable (mem addr = 0))
  | addr, c :: text =>
    haveI := decidableStringAt mem (addr + 1) text
    inferInstanceAs (Decidable (c ≠ 0 ∧ mem addr = c ∧ StringAt mem (addr + 1) text))

section Strings

variable {mem mem' : Memory} {addr : ℕ} {text : List UInt8}

theorem StringAt.congr (htext : StringAt mem addr text)
    (hsame : Set.EqOn mem mem' (Set.Ico addr (addr + text.length + 1))) :
    StringAt mem' addr text := by
  induction text generalizing addr with
  | nil =>
    have hend : mem addr = mem' addr := hsame ⟨by omega, by simp⟩
    rw [StringAt, ← hend]
    exact htext
  | cons c text ih =>
    obtain ⟨hc, hhead, htail⟩ := htext
    have hfirst : mem addr = mem' addr := hsame ⟨by omega, by rw [length_cons]; omega⟩
    refine ⟨hc, hfirst ▸ hhead, ih htail ?_⟩
    intro a ha
    apply hsame
    have hlow := ha.1
    have hhigh := ha.2
    simp only [Set.mem_Ico, length_cons]
    omega

theorem StringAt.strlen_eq (htext : StringAt mem addr text) {fuel : ℕ}
    (hfuel : text.length < fuel) : strlen mem fuel addr = some text.length := by
  induction text generalizing addr fuel with
  | nil =>
    obtain ⟨fuel, rfl⟩ := Nat.exists_eq_add_one_of_ne_zero (Nat.ne_of_gt hfuel)
    have hend : mem addr = 0 := htext
    rw [strlen, if_pos hend]
    rfl
  | cons c text ih =>
    obtain ⟨hc, hhead, htail⟩ := htext
    obtain ⟨fuel, rfl⟩ := Nat.exists_eq_add_one_of_ne_zero
      (Nat.ne_of_gt (Nat.lt_of_le_of_lt (Nat.zero_le _) hfuel))
    have hlength : text.length < fuel := by
      simp only [length_cons] at hfuel
      omega
    have hrest := ih htail hlength
    rw [strlen, if_neg (by rw [hhead]; exact hc), hrest]
    rfl

/-- A copied string with a new end. -/
theorem StringAt.of_shift (htext : StringAt mem addr text) {addr' : ℕ}
    (hsame : ∀ i < text.length, mem' (addr' + i) = mem (addr + i))
    (hend : mem' (addr' + text.length) = 0) : StringAt mem' addr' text := by
  induction text generalizing addr addr' with
  | nil => exact hend
  | cons c text ih =>
    obtain ⟨hc, hhead, htail⟩ := htext
    have hfirst : mem' addr' = mem addr := hsame 0 (by simp)
    refine ⟨hc, hfirst.trans hhead, ih htail ?_ ?_⟩
    · intro i hi
      have := hsame (i + 1) (by simpa using hi)
      rwa [Nat.add_comm i 1, ← Nat.add_assoc, ← Nat.add_assoc] at this
    · rw [length_cons, Nat.add_comm text.length 1, ← Nat.add_assoc] at hend
      exact hend

end Strings

/-- The memory as it is seen from an address. -/
def view (mem : Memory) (base : ℕ) : Memory := fun a => mem (base + a)

section View

variable (mem : Memory) (base : ℕ)

theorem load_view (width addr : ℕ) :
    load (view mem base) width addr = load mem width (base + addr) := by
  apply load_shift
  intro i _
  rw [view, Nat.add_assoc]

theorem relative_view {field target : ℕ} : Relative (view mem base) field target ↔
    Relative mem (base + field) (base + target) := by
  rw [Relative, Relative, load_view, Nat.add_sub_add_left]
  omega

theorem stringAt_view {addr : ℕ} {text : List UInt8} :
    StringAt (view mem base) addr text ↔ StringAt mem (base + addr) text := by
  induction text generalizing addr with
  | nil => rfl
  | cons c text ih => rw [StringAt, StringAt, ih, view, Nat.add_assoc]

end View

end ByteMemory
