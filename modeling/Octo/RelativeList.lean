/-
Circular doubly linked lists of structs in byte memory.  One pass writes the
structs one behind the other, each followed by what it points to, with relative
links; another closes the circle again, at whatever address the bytes are then.
-/
import Octo.ByteMemory

namespace RelativeList

open ByteMemory Option

/-- Memory, and the number of bytes that are written or counted so far.  The
number only grows, so an `int` holds it all along if it holds the last one. -/
structure Pass where
  mem : Memory
  length : ℕ

/-- A pass without a buffer only counts. -/
def Pass.write (s : Pass) (out : ℕ) (change : Memory → Memory) : Pass :=
  if out = 0 then s else { s with mem := change s.mem }

def Pass.advance (s : Pass) (n : ℕ) : Pass := { s with length := s.length + n }

@[simp] theorem Pass.length_write (s : Pass) (out : ℕ)
    (change : Memory → Memory) : (s.write out change).length = s.length := by
  unfold Pass.write
  split <;> rfl

@[simp] theorem Pass.length_advance (s : Pass) (n : ℕ) : (s.advance n).length = s.length + n := rfl

@[simp] theorem Pass.mem_advance (s : Pass) (n : ℕ) : (s.advance n).mem = s.mem := rfl

@[simp] theorem Pass.mem_write_zero (s : Pass) (change : Memory → Memory) :
    (s.write 0 change).mem = s.mem := rfl

variable {high low out : ℕ}

theorem Pass.mem_write (s : Pass) (hout : out ≠ 0)
    (change : Memory → Memory) : (s.write out change).mem = change s.mem := by
  rw [Pass.write, if_neg hout]

/-- Write a copy of `size` bytes. -/
def packCopy (size out source : ℕ) (s : Pass) : Pass :=
  (s.write out fun mem => copy mem (out + s.length) source size).advance size

section Copy

variable {size out source : ℕ} {s : Pass}

theorem length_packCopy : (packCopy size out source s).length = s.length + size := by
  simp [packCopy]

theorem packCopy_same {b : ℕ} (hb : out = 0 ∨ b < out + s.length ∨ out + s.length + size ≤ b) :
    (packCopy size out source s).mem b = s.mem b := by
  by_cases hout : out = 0
  · rw [hout]
    rfl
  · rw [packCopy, Pass.mem_advance, Pass.mem_write _ hout, copy_apply (by omega)]

theorem packCopy_apply (hout : out ≠ 0) {i : ℕ} (hi : i < size) :
    (packCopy size out source s).mem (out + s.length + i) = s.mem (source + i) := by
  rw [packCopy, Pass.mem_advance, Pass.mem_write _ hout, copy_apply_add hi]

end Copy

/-- Write a struct, with its links cleared. -/
def packStruct (front out cur : ℕ) (s : Pass) : Pass :=
  let new := out + s.length
  (s.write out fun mem =>
    store (store (copy mem new cur (front + 16)) 8 (new + front + 8) 0) 8
      (new + front) 0).advance (front + 16)

/-- Write a circular list from `cur` on. -/
def packList (front out start : ℕ) (fields : ℕ → ℕ → Pass → Option Pass) :
    ℕ → ℕ → Pass → Option Pass
  | 0, _, _ => none
  | fuel + 1, cur, s => do
    let new := out + s.length
    let s ← fields cur new (packStruct front out cur s)
    let next := load s.mem 8 (cur + front)
    if next = start then some s
    else
      packList front out start fields fuel next (s.write out fun mem =>
          storeRelative mem (new + front) (out + s.length))

/-- Restore what an element points to, its link, and the link back from the
next one. -/
def unpackElement (front start : ℕ) (fields : ℕ → Memory → Option Memory)
    (cur : ℕ) (mem : Memory) : Option Memory := do
  let mem ← fields cur mem
  let mem := store mem 8 (cur + front) (if load mem 8 (cur + front) = 0 then start
    else relativeTarget mem (cur + front))
  some (store mem 8 (load mem 8 (cur + front) + front + 8) cur)

/-- Restore a circular list from `cur` on. -/
def unpackList (front start : ℕ) (fields : ℕ → Memory → Option Memory) :
    ℕ → ℕ → Memory → Option Memory
  | 0, _, _ => none
  | fuel + 1, cur, mem => do
    let mem ← unpackElement front start fields cur mem
    let next := load mem 8 (cur + front)
    if next = start then some mem
    else unpackList front start fields fuel next mem

/-- How elements are laid out: `front` bytes, the links, and `width` bytes
that the front points to.  `node` is an element at an address, with everything
it points to in a region; `packed` is a written one. -/
structure Layout (α : Type*) where
  front : ℕ
  width : α → ℕ
  node : Memory → Set ℕ → ℕ → α → Prop
  packed : Memory → ℕ → α → Prop
  footprint : ℕ → α → Set ℕ
  node_congr : ∀ {mem mem' : Memory} {region region' : Set ℕ} {a : ℕ} {x : α},
    Set.EqOn mem mem' region → region ⊆ region' → node mem region a x → node mem' region' a x
  footprint_cases : ∀ {a b : ℕ} {x : α}, b ∈ footprint a x →
    a ≤ b ∧ b < a + front ∨ a + front + 16 ≤ b ∧ b < a + front + 16 + width x
  packed_congr : ∀ {mem mem' : Memory} {a : ℕ} {x : α},
    Set.EqOn mem mem' (footprint a x) → packed mem a x → packed mem' a x
  packed_view : ∀ {mem : Memory} {base a : ℕ} {x : α},
    packed (view mem base) a x ↔ packed mem (base + a) x

namespace Layout

variable {α : Type*} (L : Layout α)

/-- The size of an element with what it points to. -/
def block (x : α) : ℕ := L.front + 16 + L.width x

def total : List α → ℕ
  | [] => 0
  | x :: rest => L.block x + total rest

theorem length_le_total (xs : List α) : xs.length ≤ L.total xs := by
  induction xs with
  | nil => simp
  | cons x rest ih =>
    simp only [List.length_cons, total, block]
    omega

variable {rest xs : List α} {a base field following : ℕ}

theorem block_le_total {x : α} (hx : x ∈ xs) : L.block x ≤ L.total xs := by
  induction xs with
  | nil => simp at hx
  | cons y rest ih =>
    rw [total]
    rcases List.mem_cons.mp hx with rfl | hx
    · omega
    · have := ih hx
      omega

/-- The elements from `cur` on, up to `start`. -/
def RingFrom (mem : Memory) (region : Set ℕ) (start : ℕ) : ℕ → List α → Prop
  | cur, [] => cur = start
  | cur, x :: rest =>
    L.node mem region cur x ∧
    Set.Ico (cur + L.front) (cur + L.front + 8) ⊆ region ∧
    (rest ≠ [] → load mem 8 (cur + L.front) ≠ start) ∧
    Set.Ico (load mem 8 (cur + L.front) + L.front + 8)
      (load mem 8 (cur + L.front) + L.front + 16) ⊆ region ∧
    load mem 8 (load mem 8 (cur + L.front) + L.front + 8) = cur ∧
    RingFrom mem region start (load mem 8 (cur + L.front)) rest

/-- A circular list that starts at an address. -/
def Ring (mem : Memory) (region : Set ℕ) (start : ℕ) (xs : List α) : Prop :=
  xs ≠ [] ∧ L.RingFrom mem region start start xs

def packedLink (mem : Memory) (field following : ℕ) : List α → Prop
  | [] => load mem 8 field = 0
  | _ :: _ => Relative mem field following

/-- Written elements, one behind the other. -/
def PackedFrom (mem : Memory) : ℕ → List α → Prop
  | _, [] => True
  | a, x :: rest =>
    L.packed mem a x ∧
    packedLink mem (a + L.front) (a + L.block x) rest ∧
    PackedFrom mem (a + L.block x) rest

/-- The address that the link of an element holds in the end. -/
def nextAddr (start following : ℕ) : List α → ℕ
  | [] => start
  | _ :: _ => following

/-- Restored elements, still one behind the other. -/
def UnpackedFrom (mem : Memory) (start : ℕ) : ℕ → List α → Prop
  | _, [] => True
  | a, x :: rest =>
    L.node mem (L.footprint a x) a x ∧
    load mem 8 (a + L.front) = nextAddr start (a + L.block x) rest ∧
    load mem 8 (nextAddr start (a + L.block x) rest + L.front + 8) = a ∧
    UnpackedFrom mem start (a + L.block x) rest

variable {L} {mem mem' : Memory} {region region' : Set ℕ} {start : ℕ}

theorem RingFrom.congr {cur : ℕ} (hring : L.RingFrom mem region start cur xs)
    (hsame : Set.EqOn mem mem' region) (hregion : region ⊆ region') :
    L.RingFrom mem' region' start cur xs := by
  induction xs generalizing cur with
  | nil => exact hring
  | cons x rest ih =>
    obtain ⟨hnode, hlink, hnext, hprevIn, hprev, hrest⟩ := hring
    have hload := load_congr (hsame.mono hlink)
    have hback : load mem 8 (load mem 8 (cur + L.front) + L.front + 8) =
        load mem' 8 (load mem 8 (cur + L.front) + L.front + 8) :=
      load_congr (hsame.mono hprevIn)
    rw [hback] at hprev
    rw [hload] at hnext hprevIn hprev hrest
    exact ⟨L.node_congr hsame hregion hnode, hlink.trans hregion, hnext,
      hprevIn.trans hregion, hprev, ih hrest⟩

theorem packedLink_congr (hlink : packedLink mem field following rest)
    (hsame : Set.EqOn mem mem' (Set.Ico field (field + 8))) :
    packedLink mem' field following rest := by
  cases rest with
  | nil =>
    rw [packedLink, ← load_congr hsame]
    exact hlink
  | cons y rest => exact Relative.congr hlink hsame

/-- Written elements do not depend on the last field of the first one. -/
theorem PackedFrom.congr (hpacked : L.PackedFrom mem a xs)
    (hsame : ∀ b, a ≤ b → b < a + L.total xs →
    (b < a + L.front + 8 ∨ a + L.front + 16 ≤ b) → mem b = mem' b) : L.PackedFrom mem' a xs := by
  induction xs generalizing a with
  | nil => trivial
  | cons x rest ih =>
    obtain ⟨hhead, hlink, hrest⟩ := hpacked
    simp only [total, block] at hsame
    refine ⟨L.packed_congr ?_ hhead, packedLink_congr hlink ?_, ih hrest ?_⟩
    · intro b hb
      have hcases := L.footprint_cases hb
      exact hsame b (by omega) (by omega) (by omega)
    · rintro b ⟨hlow, hhigh⟩
      exact hsame b (by omega) (by omega) (by omega)
    · intro b hlow hhigh _
      simp only [block] at hlow hhigh
      exact hsame b (by omega) (by omega) (by omega)

theorem packedLink_view : packedLink (view mem base) field following rest ↔
      packedLink mem (base + field) (base + following) rest := by
  cases rest with
  | nil => rw [packedLink, packedLink, load_view]
  | cons y rest => exact relative_view mem base

/-- Written elements can be anywhere. -/
theorem packedFrom_view : L.PackedFrom (view mem base) a xs ↔ L.PackedFrom mem (base + a) xs := by
  induction xs generalizing a with
  | nil => rfl
  | cons x rest ih =>
    simp [PackedFrom, L.packed_view, packedLink_view, ih, Nat.add_assoc]

/-- The bytes that a restored list depends on. -/
def occupied (L : Layout α) : ℕ → List α → Set ℕ
  | _, [] => ∅
  | a, x :: rest =>
    L.footprint a x ∪ Set.Ico (a + L.front) (a + L.front + 16) ∪ occupied L (a + L.block x) rest

theorem UnpackedFrom.congr (hunpacked : L.UnpackedFrom mem start a xs)
    (hsame : Set.EqOn mem mem' (L.occupied a xs)) (hfirst : Set.EqOn mem mem'
    (Set.Ico (start + L.front + 8) (start + L.front + 16))) : L.UnpackedFrom mem' start a xs := by
  induction xs generalizing a with
  | nil => trivial
  | cons x rest ih =>
    obtain ⟨hnode, hnext, hprev, hrest⟩ := hunpacked
    have hhead : Set.EqOn mem mem' (L.footprint a x) :=
      hsame.mono (Set.subset_union_left.trans Set.subset_union_left)
    have hlinks := hsame.mono (Set.subset_union_right.trans Set.subset_union_left)
    have htail := hsame.mono Set.subset_union_right
    refine ⟨L.node_congr hhead (Set.Subset.refl _) hnode, ?_, ?_, ih hrest htail⟩
    · rw [← hnext]
      exact (load_congr (hlinks.mono (Set.Ico_subset_Ico (by omega) (by omega)))).symm
    · apply Eq.trans _ hprev
      symm
      apply load_congr
      cases rest with
      | nil => exact hfirst
      | cons y rest =>
        have hnextLinks := htail.mono (Set.subset_union_right.trans Set.subset_union_left)
        exact hnextLinks.mono (Set.Ico_subset_Ico (by simp only [nextAddr]; omega)
          (by simp only [nextAddr]; omega))

/-- Restored elements are a circular list. -/
theorem UnpackedFrom.ringFrom (hunpacked : L.UnpackedFrom mem start a xs)
    (hstart : a = start ∨ start < a) (hfoot : ∀ b, a ≤ b → b < a + L.total xs → b ∈ region)
    (hfirst : Set.Ico (start + L.front + 8) (start + L.front + 16) ⊆ region) :
    xs ≠ [] → L.RingFrom mem region start a xs := by
  intro hne
  induction xs generalizing a with
  | nil => exact absurd rfl hne
  | cons x rest ih =>
    obtain ⟨hnode, hnext, hprev, hrest⟩ := hunpacked
    simp only [total, block] at hfoot
    have hsub : L.footprint a x ⊆ region := by
      intro b hb
      have hcases := L.footprint_cases hb
      exact hfoot b (by omega) (by omega)
    refine ⟨L.node_congr (Set.eqOn_refl _ _) hsub hnode, ?_, ?_, ?_, ?_, ?_⟩
    · rintro b ⟨hlow, hhigh⟩
      exact hfoot b (by omega) (by omega)
    · intro hrestNe
      rw [hnext]
      cases rest with
      | nil => exact absurd rfl hrestNe
      | cons y rest =>
        simp only [nextAddr, block]
        omega
    · rw [hnext]
      cases rest with
      | nil => exact hfirst
      | cons y rest =>
        rintro b ⟨hlow, hhigh⟩
        simp only [nextAddr, block] at hlow hhigh
        simp only [total, block] at hfoot
        exact hfoot b (by omega) (by omega)
    · rw [hnext]
      exact hprev
    · rw [hnext]
      cases rest with
      | nil => rfl
      | cons y rest =>
        apply ih hrest _ _ (by simp)
        · right
          simp only [block]
          omega
        · intro b hlow hhigh
          simp only [block] at hlow hhigh
          exact hfoot b (by omega) (by omega)

end Layout

/-- The bytes from `low` to `high` can be written without a change to what is
read. -/
def Room (out : ℕ) (region : Set ℕ) (low high : ℕ) : Prop :=
  out ≠ 0 → high ≤ 2 ^ 64 ∧ ∀ b ∈ region, b < low ∨ high ≤ b

variable {region : Set ℕ}

theorem Room.mono {low' high' : ℕ} (hroom : Room out region low high)
    (hwithin : out ≠ 0 → low ≤ low' ∧ high' ≤ high) : Room out region low' high' := by
  intro hout
  obtain ⟨hbound, haway⟩ := hroom hout
  refine ⟨by omega, fun b hb => ?_⟩
  have := haway b hb
  omega

theorem Room.eqOn (hroom : Room out region low high) {mem mem' : Memory}
    (hsame : ∀ b, out = 0 ∨ b < low ∨ high ≤ b → mem' b = mem b) : Set.EqOn mem mem' region := by
  intro b hb
  by_cases hout : out = 0
  · exact (hsame b (Or.inl hout)).symm
  · exact (hsame b (Or.inr ((hroom hout).2 b hb))).symm

/-- A pass went on by `n` bytes and changed nothing else. -/
structure Wrote (out n : ℕ) (s s' : Pass) : Prop where
  length : s'.length = s.length + n
  same : ∀ b, out = 0 ∨ b < out + s.length ∨ out + s.length + n ≤ b → s'.mem b = s.mem b

namespace Layout

variable {α : Type*} (L : Layout α)

/-- `fields` writes what an element points to, behind its copy at `new`. -/
def PacksFields (out : ℕ) (region : Set ℕ) (fields : ℕ → ℕ → Pass → Option Pass) (x : α) : Prop :=
  ∀ cur new s, L.node s.mem region cur x → (out ≠ 0 → new + L.front + 16 = out + s.length ∧
    ∀ i < L.front, cur + i ∈ region → s.mem (new + i) = s.mem (cur + i)) →
    Room out region new (out + s.length + L.width x) →
    ∃ s', fields cur new s = some s' ∧ s'.length = s.length + L.width x ∧
    (∀ b, out = 0 ∨ b < new ∨ new + L.front ≤ b ∧ b < new + L.front + 16 ∨
    out + s.length + L.width x ≤ b → s'.mem b = s.mem b) ∧ (out ≠ 0 → L.packed s'.mem new x)

/-- `fields` restores what a written element points to. -/
def UnpacksFields (fields : ℕ → Memory → Option Memory) (bound : ℕ) (x : α) :
    Prop :=
  ∀ a mem, L.packed mem a x → a + L.block x ≤ bound → ∃ mem', fields a mem = some mem' ∧
    (∀ b, b ∉ L.footprint a x → mem' b = mem b) ∧ L.node mem' (L.footprint a x) a x

variable {L}

section Struct

variable {front out cur : ℕ} {s : Pass}

theorem length_packStruct : (packStruct front out cur s).length = s.length + (front + 16) := by
  simp [packStruct]

theorem packStruct_same {b : ℕ}
    (hb : out = 0 ∨ b < out + s.length ∨ out + s.length + front + 16 ≤ b) :
    (packStruct front out cur s).mem b = s.mem b := by
  by_cases hout : out = 0
  · rw [hout]
    rfl
  · rw [packStruct, Pass.mem_advance, Pass.mem_write _ hout,
      store_apply (by omega), store_apply (by omega), copy_apply (by omega)]

theorem packStruct_front (hout : out ≠ 0) {i : ℕ} (hi : i < front) :
    (packStruct front out cur s).mem (out + s.length + i) = s.mem (cur + i) := by
  rw [packStruct, Pass.mem_advance, Pass.mem_write _ hout,
    store_apply (by omega), store_apply (by omega), copy_apply_add (by omega)]

end Struct

variable {fields : ℕ → ℕ → Pass → Option Pass}

variable {s : Pass}

/-- One element: the struct and what it points to. -/
theorem packElement_spec {out : ℕ} {x : α} (hfields : L.PacksFields out region fields x) {cur : ℕ}
    (hnode : L.node s.mem region cur x)
    (hroom : Room out region (out + s.length) (out + s.length + L.block x)) :
    ∃ s', fields cur (out + s.length) (packStruct L.front out cur s) = some s' ∧
    Wrote out (L.block x) s s' ∧ (out ≠ 0 → L.packed s'.mem (out + s.length) x ∧
    load s'.mem 8 (out + s.length + L.front) = 0) := by
  unfold block at hroom ⊢
  have hregion : Set.EqOn s.mem (packStruct L.front out cur s).mem region :=
    hroom.eqOn fun b hb => packStruct_same (by omega)
  have hcopied : out ≠ 0 → out + s.length + L.front + 16 =
        out + (packStruct L.front out cur s).length ∧
      ∀ i < L.front, cur + i ∈ region → (packStruct L.front out cur s).mem (out + s.length + i) =
        (packStruct L.front out cur s).mem (cur + i) := by
    intro hout
    refine ⟨by rw [length_packStruct]; omega, ?_⟩
    intro i hi hin
    rw [packStruct_front hout hi]
    exact hregion hin
  obtain ⟨s', hs', hlength, hsame, hpacked⟩ := hfields cur (out + s.length)
    (packStruct L.front out cur s) (L.node_congr hregion (Set.Subset.refl _) hnode) hcopied
    (hroom.mono fun _ =>
      ⟨Nat.le_refl _, by rw [length_packStruct]; omega⟩)
  rw [length_packStruct] at hlength hsame
  refine ⟨s', hs', ⟨by omega, ?_⟩, ?_⟩
  · intro b hb
    rw [hsame b (by omega), packStruct_same (by omega)]
  · intro hout
    refine ⟨hpacked hout, ?_⟩
    have hlink : Set.EqOn s'.mem (packStruct L.front out cur s).mem
        (Set.Ico (out + s.length + L.front) (out + s.length + L.front + 8)) := by
      rintro b ⟨hlow, hhigh⟩
      exact hsame b (by omega)
    rw [load_congr hlink, packStruct, Pass.mem_advance, Pass.mem_write _ hout, load_store]
    rfl

variable {xs : List α}

theorem packList_spec {out start : ℕ} (hne : xs ≠ [])
    (hfields : ∀ x ∈ xs, L.PacksFields out region fields x) {fuel cur : ℕ}
    (hfuel : xs.length ≤ fuel) (hring : L.RingFrom s.mem region start cur xs)
    (hroom : Room out region (out + s.length) (out + s.length + L.total xs)) :
    ∃ s', packList L.front out start fields fuel cur s = some s' ∧ Wrote out (L.total xs) s s' ∧
    (out ≠ 0 → L.PackedFrom s'.mem (out + s.length) xs) := by
  induction xs generalizing fuel cur s with
  | nil => exact absurd rfl hne
  | cons x rest ih =>
    obtain ⟨fuel, rfl⟩ : ∃ n, fuel = n + 1 := ⟨fuel - 1, by simp at hfuel; omega⟩
    simp only [total] at hroom
    have hroom1 : Room out region (out + s.length) (out + s.length + L.block x) :=
      hroom.mono fun _ => ⟨Nat.le_refl _, by omega⟩
    obtain ⟨s1, hs1, hwrote1, hpacked1⟩ := packElement_spec
      (hfields x List.mem_cons_self) hring.1 hroom1
    have hregion : Set.EqOn s.mem s1.mem region := hroom1.eqOn hwrote1.same
    have hring1 := hring.congr hregion (Set.Subset.refl _)
    obtain ⟨_, _, hnext, _, _, hrest⟩ := hring1
    have hlength1 := hwrote1.length
    rw [packList, hs1]
    cases rest with
    | nil =>
      have hstart : load s1.mem 8 (cur + L.front) = start := hrest
      refine ⟨s1, by simp [hstart], ?_, ?_⟩
      · exact ⟨hwrote1.length, hwrote1.same⟩
      · intro hout
        exact ⟨(hpacked1 hout).1, (hpacked1 hout).2, trivial⟩
    | cons y rest =>
      have hnotStart := hnext (by simp)
      -- The link is set before the next element is written.
      obtain ⟨s2, hs2⟩ : ∃ s2, s2 = s1.write out fun mem =>
        storeRelative mem (out + s.length + L.front) (out + s1.length) :=
          ⟨_, rfl⟩
      have hlength2 : s2.length = s1.length := by simp [hs2]
      have hsame2 : ∀ b, out = 0 ∨ b < out + s.length + L.front ∨
          out + s.length + L.front + 8 ≤ b → s2.mem b = s1.mem b := by
        intro b hb
        by_cases hout : out = 0
        · rw [hs2, hout]
          rfl
        · rw [hs2, Pass.mem_write _ hout, storeRelative, store_apply (by omega)]
      have hlink : out ≠ 0 → Relative s2.mem (out + s.length + L.front)
          (out + s.length + L.block x) := by
        intro hout
        have hhigh := (hroom hout).1
        simp only [total, block] at hhigh
        rw [hs2, Pass.mem_write _ hout, hlength1, ← Nat.add_assoc]
        apply relative_storeRelative
        · simp only [block]
          omega
        · simp only [block]
          omega
      have hregion2 : Set.EqOn s1.mem s2.mem region := by
        apply hroom1.eqOn
        intro b hb
        simp only [block] at hb
        exact hsame2 b (by omega)
      obtain ⟨s3, hs3, hwrote3, hpacked3⟩ := ih (by simp)
        (fun z hz => hfields z (List.mem_cons_of_mem x hz)) (by simpa using hfuel)
        (hrest.congr hregion2 (Set.Subset.refl _)) (hroom.mono fun _ => ⟨by omega, by omega⟩)
      refine ⟨s3, ?_, ⟨?_, ?_⟩, ?_⟩
      · simp [bind_eq_bind, bind_some, if_neg hnotStart, ← hs2, hs3]
      · have hlength3 := hwrote3.length
        simp only [total] at hlength3 ⊢
        omega
      · intro b hb
        simp only [total, block] at hb hlength1
        have hsame3 := hwrote3.same b
        simp only [total, block] at hsame3
        rw [hsame3 (by omega), hsame2 b (by omega), hwrote1.same b (by simp only [block]; omega)]
      · intro hout
        have hkeep3 : ∀ b, b < out + s.length + L.block x → s3.mem b = s2.mem b := by
          intro b hb
          exact hwrote3.same b (by omega)
        refine ⟨L.packed_congr ?_ (hpacked1 hout).1, ?_, ?_⟩
        · intro b hb
          have hcases := L.footprint_cases hb
          rw [hkeep3 b (by simp only [block]; omega), hsame2 b (by omega)]
        · apply Relative.congr (hlink hout)
          rintro b ⟨-, hhigh⟩
          exact (hkeep3 b (by simp only [block]; omega)).symm
        · have hpacked := hpacked3 hout
          rwa [hlength2, hlength1, ← Nat.add_assoc] at hpacked

section Unpack

variable {fields : ℕ → Memory → Option Memory} {bound a start : ℕ} {mem : Memory}

theorem unpackElement_spec {x : α} {rest : List α} (hfields : L.UnpacksFields fields bound x)
    (hbound : bound ≤ 2 ^ 64) (hpacked : L.PackedFrom mem a (x :: rest))
    (hstart : start = a ∨ start + L.front + 16 ≤ a) (hhigh : a + L.total (x :: rest) ≤ bound)
    {next : ℕ} (hnext : nextAddr start (a + L.block x) rest = next) :
    ∃ mem', unpackElement L.front start fields a mem = some mem' ∧
    load mem' 8 (a + L.front) = next ∧ load mem' 8 (next + L.front + 8) = a ∧
    L.node mem' (L.footprint a x) a x ∧
    ∀ b, b ∉ L.footprint a x → (b < a + L.front ∨ a + L.front + 8 ≤ b) →
    (b < next + L.front + 8 ∨ next + L.front + 16 ≤ b) → mem' b = mem b := by
  obtain ⟨hhead, hlink, _⟩ := hpacked
  have hblock : a + L.block x ≤ bound := by
    simp only [total] at hhigh
    omega
  obtain ⟨mem1, hmem1, hsame1, hnode1⟩ := hfields a mem hhead hblock
  -- The next element is behind this one, or the first one again.
  have haway : next = a ∨ next + L.front + 16 ≤ a ∨ next = a + L.block x := by
    cases rest with
    | nil =>
      rw [← hnext, nextAddr]
      omega
    | cons y rest => exact Or.inr (Or.inr hnext.symm)
  have hnextLt : next < 2 ^ 64 := by
    simp only [total, block] at hhigh
    cases rest with
    | nil =>
      rw [← hnext, nextAddr]
      omega
    | cons y rest =>
      rw [← hnext, nextAddr]
      simp only [total, block] at hhigh ⊢
      omega
  have hlinkSame : Set.EqOn mem mem1 (Set.Ico (a + L.front) (a + L.front + 8)) := by
    rintro b ⟨hlow, hup⟩
    have hnotIn : b ∉ L.footprint a x := by
      intro hin
      have := L.footprint_cases hin
      omega
    exact (hsame1 b hnotIn).symm
  have htarget : (if load mem1 8 (a + L.front) = 0 then start
      else relativeTarget mem1 (a + L.front)) = next := by
    have hlink1 := packedLink_congr hlink hlinkSame
    cases rest with
    | nil =>
      have hnull : load mem1 8 (a + L.front) = 0 := hlink1
      rw [if_pos hnull, ← hnext, nextAddr]
    | cons y rest =>
      have hrelative := hlink1
      rw [if_neg hrelative.ne_zero, ← hnext, nextAddr]
      apply hrelative.target_eq
      rw [← hnext, nextAddr] at hnextLt
      exact hnextLt
  have hstored : load (store mem1 8 (a + L.front) next) 8 (a + L.front) =
      next := by
    rw [load_store]
    exact Nat.mod_eq_of_lt hnextLt
  simp only [block] at haway
  refine ⟨store (store mem1 8 (a + L.front) next) 8 (next + L.front + 8) a, ?_, ?_, ?_, ?_, ?_⟩
  · simp [unpackElement, hmem1, htarget, hstored]
  · rw [load_store_of_disjoint (by omega), hstored]
  · rw [load_store]
    apply Nat.mod_eq_of_lt
    simp only [block] at hblock
    omega
  · apply L.node_congr _ (Set.Subset.refl _) hnode1
    intro b hb
    have hcases := L.footprint_cases hb
    rw [store_apply, store_apply]
    · omega
    · omega
  · intro b hnotIn hlinkAway hback
    rw [store_apply (by omega), store_apply (by omega), hsame1 b hnotIn]

/-- What restoring a list can change: the elements from `a` on but for the last
field of the first one, and that field of `start`. -/
def restored (front start a high : ℕ) : Set ℕ :=
  { b | (a ≤ b ∧ b < high ∧ (b < a + front + 8 ∨ a + front + 16 ≤ b)) ∨
    (start + front + 8 ≤ b ∧ b < start + front + 16) }

theorem unpackList_spec (hne : xs ≠ [])
    (hfields : ∀ x ∈ xs, L.UnpacksFields fields bound x) (hbound : bound ≤ 2 ^ 64) {fuel : ℕ}
    (hfuel : xs.length ≤ fuel) (hpacked : L.PackedFrom mem a xs)
    (hstart : start = a ∨ start + L.front + 16 ≤ a) (hhigh : a + L.total xs ≤ bound) :
    ∃ mem', unpackList L.front start fields fuel a mem = some mem' ∧
    (∀ b, b ∉ restored L.front start a (a + L.total xs) → mem' b = mem b) ∧
    L.UnpackedFrom mem' start a xs := by
  induction xs generalizing fuel a mem with
  | nil => exact absurd rfl hne
  | cons x rest ih =>
    obtain ⟨fuel, rfl⟩ : ∃ n, fuel = n + 1 := ⟨fuel - 1, by simp at hfuel; omega⟩
    obtain ⟨mem1, hmem1, hnext1, hprev1, hnode1, hsame1⟩ :=
      unpackElement_spec (hfields x List.mem_cons_self) hbound hpacked hstart hhigh rfl
    cases rest with
    | nil =>
      simp only [nextAddr] at hnext1 hprev1 hsame1
      refine ⟨mem1, by simp [unpackList, hmem1, hnext1], ?_, hnode1, hnext1, hprev1, trivial⟩
      intro b hb
      simp only [restored, total, block, Set.mem_ofPred_eq] at hb
      apply hsame1
      · intro hin
        have := L.footprint_cases hin
        omega
      · omega
      · omega
    | cons y rest =>
      simp only [nextAddr] at hnext1 hprev1 hsame1
      have hpacked1 : L.PackedFrom mem1 (a + L.block x) (y :: rest) := by
        apply hpacked.2.2.congr
        intro b hlow hup hprevField
        simp only [block] at hlow hprevField hsame1
        refine (hsame1 b ?_ (by omega) (by omega)).symm
        intro hin
        have := L.footprint_cases hin
        omega
      have hnotStart : a + L.block x ≠ start := by
        simp only [block]
        omega
      simp only [total] at hhigh
      obtain ⟨mem2, hmem2, hsame2, hunpacked2⟩ := ih (by simp)
        (fun z hz => hfields z (List.mem_cons_of_mem x hz)) (by simpa using hfuel) hpacked1
        (Or.inr (by simp only [block]; omega)) (by simp only [total]; omega)
      have hkeep2 : ∀ b, (b < a + L.block x ∨ a + L.block x + L.front + 8 ≤ b ∧
            b < a + L.block x + L.front + 16) →
          (b < start + L.front + 8 ∨ start + L.front + 16 ≤ b) →
          mem2 b = mem1 b := by
        intro b hb haway
        apply hsame2
        simp only [restored, Set.mem_ofPred_eq]
        omega
      refine ⟨mem2, ?_, ?_, ?_, ?_, ?_, hunpacked2⟩
      · simp [unpackList, hmem1, hnext1, hnotStart, hmem2]
      · intro b hb
        simp only [restored, total, block, Set.mem_ofPred_eq] at hb
        rw [hsame2, hsame1]
        · intro hin
          have := L.footprint_cases hin
          omega
        · omega
        · simp only [block]
          omega
        · simp only [restored, total, block, Set.mem_ofPred_eq]
          omega
      · apply L.node_congr _ (Set.Subset.refl _) hnode1
        intro b hb
        have hcases := L.footprint_cases hb
        refine (hkeep2 b ?_ ?_).symm
        · simp only [block]
          omega
        · omega
      · rw [← hnext1]
        apply load_congr
        rintro b ⟨hlow, hup⟩
        apply hkeep2
        · simp only [block]
          omega
        · omega
      · rw [nextAddr]
        apply Eq.trans _ hprev1
        apply load_congr
        rintro b ⟨hlow, hup⟩
        simp only [block] at hlow hup
        apply hkeep2
        · simp only [block]
          omega
        · omega

end Unpack

end Layout

end RelativeList
