/-
The memory of statements and plans.  `octo_cmalloc` hands out the next bytes of the
last chunk of a ring, and first puts a new chunk there if they do not fit.  Whether
they do is decided by a sum of sizes that may overflow.
-/
import Mathlib.Data.Nat.Notation
import Mathlib.Logic.Function.Basic
import Mathlib.Tactic.SplitIfs

namespace Octo

open Function

/-- The fields of the chunks by their addresses, and the next address that an
allocation gives.  The root has address 0. -/
structure Chunks where
  next : ℕ → ℕ
  prev : ℕ → ℕ
  offset : ℕ → UInt64
  maxSize : ℕ → UInt64
  value : ℕ → ℕ → UInt8
  count : ℕ

structure Block where
  chunk : ℕ
  start : ℕ
  size : ℕ

namespace Chunks

def memoryChunkSize : UInt64 := 33554432

/-- `alloc_chunk`, where `malloc` and `calloc` have room. -/
def allocChunk (size : UInt64) (chunks : Chunks) : Chunks where
  next := update chunks.next chunks.count chunks.count
  prev := update chunks.prev chunks.count chunks.count
  offset := update chunks.offset chunks.count 0
  maxSize := update chunks.maxSize chunks.count
    (if memoryChunkSize < size then size else memoryChunkSize)
  value := update chunks.value chunks.count fun _ => 0
  count := chunks.count + 1

def dqinsert (self newElem : ℕ) (chunks : Chunks) : Chunks :=
  let temp := chunks.prev self
  let chunks := { chunks with next := update chunks.next (chunks.prev self) newElem }
  let chunks := { chunks with prev := update chunks.prev self (chunks.prev newElem) }
  let chunks := { chunks with next := update chunks.next (chunks.prev newElem) self }
  { chunks with prev := update chunks.prev newElem temp }

/-- The next bytes of the last chunk. -/
def handOut (size : UInt64) (chunks : Chunks) : Block × Chunks :=
  let cur := chunks.prev 0
  (⟨cur, (chunks.offset cur).toNat, size.toNat⟩,
    { chunks with offset := update chunks.offset cur (chunks.offset cur + size) })

/-- `octo_cmalloc`; none if an assert fails. -/
def octoCmalloc (size : UInt64) (chunks : Chunks) : Option (Block × Chunks) :=
  let cur := chunks.prev 0
  if chunks.maxSize cur < chunks.offset cur + size then
    let new := chunks.count
    let later := dqinsert 0 new (allocChunk size chunks)
    if later.prev 0 = new ∧ later.next new = 0 then some (handOut size later) else none
  else some (handOut size chunks)

def HasRoom (chunks : Chunks) (size : UInt64) : Prop :=
  (chunks.offset (chunks.prev 0)).toNat + size.toNat ≤ (chunks.maxSize (chunks.prev 0)).toNat

/-- The ring goes over the chunks up to the last one and back to the root. -/
def Ring (chunks : Chunks) (last : ℕ) : Prop :=
  chunks.prev 0 = last ∧ chunks.next last = 0 ∧
    ∀ i < last, chunks.next i = i + 1 ∧ chunks.prev (i + 1) = i

end Chunks

/-- Chunks, and the blocks that were handed out. -/
structure Arena where
  chunks : Chunks
  blocks : List Block

/-- A call of `octo_cmalloc`, or a byte that is stored in a block. -/
inductive Arena.Use
  | request (size : UInt64)
  | store (block i : ℕ) (byte : UInt8)

namespace Arena

open Chunks

variable {arena : Arena} {size : UInt64}

def step (arena : Arena) : Use → Option Arena
  | .request size => do
    let (block, chunks) ← octoCmalloc size arena.chunks
    some ⟨chunks, block :: arena.blocks⟩
  | .store block i byte =>
    match arena.blocks[block]? with
    | some block =>
      if i < block.size then
        let value := arena.chunks.value
        let bytes := update (value block.chunk) (block.start + i) byte
        some { arena with
          chunks := { arena.chunks with value := update value block.chunk bytes } }
      else none
    | none => none

/-- The block lies inside its chunk, is zero and apart from all blocks before, and
its chunk is the end of the ring. -/
def Served (arena : Arena) (size : UInt64) : Prop :=
  ∃ block chunks, octoCmalloc size arena.chunks = some (block, chunks) ∧
    block.size = size.toNat ∧ block.start + block.size ≤ (chunks.maxSize block.chunk).toNat ∧
    (∀ i < block.size, chunks.value block.chunk (block.start + i) = 0) ∧
    (∀ other ∈ arena.blocks, other.chunk = block.chunk → other.start + other.size ≤ block.start) ∧
    chunks.Ring block.chunk

/-- The sum of the offset and the size does not overflow. -/
def Fits (arena : Arena) (size : UInt64) : Prop :=
  (arena.chunks.offset (arena.chunks.prev 0)).toNat + size.toNat < 18446744073709551616

/-- A property of all requests of a run. -/
def Always (P : Arena → UInt64 → Prop) : List Use → Arena → Prop
  | [], _ => True
  | use :: uses, arena =>
    (∀ size, use = .request size → P arena size) ∧
      ∀ later, arena.step use = some later → Always P uses later

/-- The bytes behind an offset are zero and in no block. -/
structure Sound (chunks : Chunks) (blocks : List Block) : Prop where
  count : chunks.count = chunks.prev 0 + 1
  ring : chunks.Ring (chunks.prev 0)
  inside : ∀ c < chunks.count, chunks.offset c ≤ chunks.maxSize c
  zero : ∀ c i, (chunks.offset c).toNat ≤ i → chunks.value c i = 0
  blocks : ∀ block ∈ blocks, block.chunk < chunks.count ∧
    block.start + block.size ≤ (chunks.offset block.chunk).toNat

variable {chunks : Chunks} {blocks : List Block}

theorem Sound.newChunk (hsound : Sound chunks blocks) (size : UInt64) :
    Sound (dqinsert 0 chunks.count (allocChunk size chunks)) blocks := by
  obtain ⟨hcount, ⟨-, -, hring⟩, hinside, hzero, hblocks⟩ := hsound
  refine ⟨?_, ⟨rfl, ?_, fun i => ?_⟩, fun c => ?_, fun c i => ?_, fun block hblock => ?_⟩
  · simp [dqinsert, allocChunk, hcount]
  · simp [dqinsert, allocChunk, hcount]
  · simp only [dqinsert, allocChunk, update_apply, hcount]
    grind
  · have := hinside c
    simp only [dqinsert, allocChunk, update_apply]
    grind
  · by_cases hc : c = chunks.count
    · simp [dqinsert, allocChunk, hc]
    · simpa [dqinsert, allocChunk, hc] using hzero c i
  · have := hblocks block hblock
    simp only [dqinsert, allocChunk, update_apply]
    grind

theorem Sound.filled (hsound : Sound chunks blocks) (hroom : chunks.HasRoom size) :
    Sound (handOut size chunks).2 ((handOut size chunks).1 :: blocks) := by
  obtain ⟨hcount, hring, hinside, hzero, hblocks⟩ := hsound
  have hsum : (chunks.offset (chunks.prev 0) + size).toNat =
      (chunks.offset (chunks.prev 0)).toNat + size.toNat := by
    rw [UInt64.toNat_add, Nat.mod_eq_of_lt (Nat.lt_of_le_of_lt hroom (UInt64.toNat_lt _))]
  refine ⟨hcount, hring, fun c hc => ?_, fun c i hi => ?_, fun block hblock => ?_⟩
  · simp only [handOut, update_apply]
    split_ifs with hlast
    · rw [UInt64.le_iff_toNat_le, hsum, hlast]
      exact hroom
    · exact hinside c hc
  · apply hzero
    simp only [handOut, update_apply] at hi
    grind
  · rcases List.mem_cons.mp hblock with rfl | hblock
    · simp [handOut, hsum, hcount]
    · have := hblocks block hblock
      simp only [handOut, update_apply]
      grind

theorem Sound.store (hsound : Sound arena.chunks arena.blocks) {block i : ℕ} {byte : UInt8}
    {later : Arena} (hstep : arena.step (.store block i byte) = some later) :
    Sound later.chunks later.blocks := by
  simp only [step] at hstep
  split at hstep
  case h_1 block hblock =>
    obtain ⟨-, hle⟩ := hsound.blocks block (List.mem_of_getElem? hblock)
    split_ifs at hstep with hi
    cases hstep
    refine ⟨hsound.count, hsound.ring, hsound.inside, fun c j hj => ?_, hsound.blocks⟩
    have := hsound.zero c j hj
    simp only [update_apply] at hj ⊢
    grind
  case h_2 => cases hstep

/-- The chunk that a request is served from, new or not, has room for it. -/
theorem Sound.exists_room (hsound : Sound chunks blocks)
    (hfits : (chunks.offset (chunks.prev 0)).toNat + size.toNat < 18446744073709551616) :
    ∃ filled, octoCmalloc size chunks = some (handOut size filled) ∧
      Sound filled blocks ∧ filled.HasRoom size := by
  by_cases hfull : chunks.maxSize (chunks.prev 0) < chunks.offset (chunks.prev 0) + size
  · have hnew := hsound.newChunk size
    have hlast : (dqinsert 0 chunks.count (allocChunk size chunks)).prev 0 = chunks.count := by
      simp [dqinsert, allocChunk, hsound.count]
    have hclosed := hnew.ring.2.1
    rw [hlast] at hclosed
    refine ⟨_, by rw [octoCmalloc, if_pos hfull, if_pos ⟨hlast, hclosed⟩], hnew, ?_⟩
    rw [HasRoom, hlast]
    simp only [dqinsert, allocChunk, update_self]
    split_ifs with hsize
    · simp
    · simpa [UInt64.lt_iff_toNat_lt] using hsize
  · refine ⟨chunks, by rw [octoCmalloc, if_neg hfull], hsound, ?_⟩
    rw [UInt64.lt_iff_toNat_lt, UInt64.toNat_add, Nat.mod_eq_of_lt hfits] at hfull
    exact Nat.le_of_not_lt hfull

/-- A sum that overflows is less than the offset, so the chunk seems to have room. -/
theorem served_iff (hsound : Sound arena.chunks arena.blocks) (size : UInt64) :
    arena.Served size ↔ arena.Fits size := by
  constructor
  · rintro ⟨block, chunks, hcall, -, hinside, -⟩
    by_contra hfits
    have hsize := size.toNat_lt
    have hmax := (arena.chunks.maxSize (arena.chunks.prev 0)).toNat_lt
    have hoffset := hsound.inside (arena.chunks.prev 0) (hsound.count ▸ Nat.lt_succ_self _)
    rw [UInt64.le_iff_toNat_le] at hoffset
    rw [Fits] at hfits
    rw [octoCmalloc, if_neg] at hcall
    · cases hcall
      dsimp only at hinside
      omega
    · rw [UInt64.lt_iff_toNat_lt, UInt64.toNat_add]
      omega
  · intro hfits
    obtain ⟨filled, hcall, hfilled, hroom⟩ := hsound.exists_room hfits
    refine ⟨_, _, hcall, rfl, hroom, fun i _ => hfilled.zero _ _ (Nat.le_add_right _ _), ?_,
      hfilled.ring⟩
    rintro ⟨chunk, start, size⟩ hother rfl
    exact (hfilled.blocks _ hother).2

theorem always_served_iff {uses : List Use} (hsound : Sound arena.chunks arena.blocks) :
    Always Served uses arena ↔ Always Fits uses arena := by
  induction uses generalizing arena with
  | nil => rfl
  | cons use uses ih =>
    rw [Always, Always, forall₂_congr fun size _ => served_iff hsound size]
    refine and_congr_right fun hfits => forall₂_congr fun later hstep => ih ?_
    cases use with
    | request size =>
      obtain ⟨filled, hcall, hfilled, hroom⟩ := hsound.exists_room (hfits size rfl)
      rw [step, hcall] at hstep
      cases hstep
      exact hfilled.filled hroom
    | store => exact hsound.store hstep

/-- The chunk that `alloc_chunk` gives before the first call. -/
def initial (size : UInt64) : Arena :=
  ⟨allocChunk size ⟨id, id, fun _ => 0, fun _ => 0, fun _ _ => 0, 0⟩, []⟩

end Arena

open Arena Chunks

theorem all_requests_are_served_iff (size : UInt64) (uses : List Use) :
    Always Served uses (initial size) ↔ Always Fits uses (initial size) := by
  apply always_served_iff
  refine ⟨rfl, ⟨rfl, rfl, nofun⟩, ?_, fun c _ _ => ?_, nofun⟩
  · simp [initial, allocChunk]
  · simp [initial, allocChunk]

/-- One byte, and then 2 ^ 64 - 1: the second block starts at 1 in the chunk. -/
theorem block_passes_chunk : ∃ arena block chunks, (initial 0).step (.request 1) = some arena ∧
    octoCmalloc 18446744073709551615 arena.chunks = some (block, chunks) ∧
    block.start + block.size = 18446744073709551616 ∧ chunks.maxSize block.chunk = 33554432 :=
  ⟨_, _, _, rfl, rfl, rfl, rfl⟩

end Octo
