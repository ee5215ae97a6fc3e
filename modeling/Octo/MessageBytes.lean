/-
Reading a message from a buffer in memory: numbers in network order, strings
that end in a zero byte, and loops that walk to the end of a string.  A buffer
does not end with the message; what lies behind it is part of the model, since
a loop may come to it.
-/
import Mathlib.Data.List.Induction
import Mathlib.Tactic.Ring
import Mathlib.Data.List.TakeWhile

namespace MessageBytes

open List

/-- A number in network order. -/
def bigEndian : ℕ → ℕ → List UInt8
  | 0, _ => []
  | width + 1, n => bigEndian width (n / 256) ++ [UInt8.ofNat n]

/-- The number that bytes in network order mean. -/
def number (bytes : List UInt8) : ℕ :=
  bytes.foldl (fun n byte => n * 256 + byte.toNat) 0

section Numbers

@[simp] theorem length_bigEndian (width n : ℕ) : (bigEndian width n).length = width := by
  induction width generalizing n with
  | zero => rfl
  | succ width ih => simp [bigEndian, ih]

@[simp] theorem number_append_singleton (bytes : List UInt8) (byte : UInt8) :
    number (bytes ++ [byte]) = number bytes * 256 + byte.toNat := by
  simp [number]

theorem number_bigEndian {width n : ℕ} (hn : n < 256 ^ width) : number (bigEndian width n) = n := by
  induction width generalizing n with
  | zero =>
    have hzero : n = 0 := by simpa using hn
    rw [hzero]
    rfl
  | succ width ih =>
    have hquotient : n / 256 < 256 ^ width := by
      rw [Nat.div_lt_iff_lt_mul (by decide)]
      rwa [pow_succ] at hn
    have hbyte : (UInt8.ofNat n).toNat = n % 256 := by simp
    rw [bigEndian, number_append_singleton, ih hquotient, hbyte]
    exact Nat.div_add_mod' n 256

theorem bigEndian_number {width : ℕ} {bytes : List UInt8} (hlength : bytes.length = width) :
    bigEndian width (number bytes) = bytes := by
  induction bytes using List.reverseRecOn generalizing width with
  | nil =>
    obtain rfl : 0 = width := hlength
    rfl
  | append_singleton front last ih =>
    obtain rfl : front.length + 1 = width := by simpa using hlength
    have hlast : last.toNat < 256 := last.toNat_lt
    have hquotient : (number front * 256 + last.toNat) / 256 = number front := by omega
    have hbyte : UInt8.ofNat (number front * 256 + last.toNat) = last := by
      apply UInt8.toNat.inj
      simp
    rw [number_append_singleton, bigEndian, hquotient, hbyte, ih rfl]

theorem le_number_cons (byte : UInt8) (bytes : List UInt8) :
    byte.toNat * 256 ^ bytes.length ≤ number (byte :: bytes) := by
  induction bytes using List.reverseRecOn with
  | nil => simp [number]
  | append_singleton bytes last ih =>
    rw [← cons_append, number_append_singleton, length_append,
      length_singleton, pow_succ, ← Nat.mul_assoc]
    omega

theorem number_lt (bytes : List UInt8) : number bytes < 256 ^ bytes.length := by
  induction bytes using List.reverseRecOn with
  | nil => decide
  | append_singleton bytes byte ih =>
    have hbyte : byte.toNat < 256 := byte.toNat_lt
    rw [number_append_singleton, length_append, length_singleton, pow_succ]
    omega

end Numbers

/-- A string without zero byte. -/
structure CString where
  text : List UInt8
  nul_not_mem : (0 : UInt8) ∉ text
deriving DecidableEq, Repr

namespace CString

def bytes (s : CString) : List UInt8 := s.text ++ [0]

@[simp] theorem length_bytes (s : CString) : s.bytes.length = s.text.length + 1 := by
  simp [bytes]

@[ext] theorem ext {s t : CString} (h : s.text = t.text) : s = t := by
  cases s
  cases t
  congr

def empty : CString := ⟨[], by decide⟩

def ofBytes (bytes : List UInt8) : CString where
  text := bytes.takeWhile (· ≠ 0)
  nul_not_mem := fun hmem => by simpa using mem_takeWhile_imp hmem

theorem text_ofBytes_append (s : CString) (rest : List UInt8) :
    (ofBytes (s.text ++ rest)).text = s.text ++ (ofBytes rest).text := by
  apply takeWhile_append_of_pos
  intro c hc
  have hne : c ≠ 0 := fun hzero => s.nul_not_mem (hzero ▸ hc)
  simpa using hne

theorem ofBytes_append (s : CString) (rest : List UInt8) : ofBytes (s.bytes ++ rest) = s := by
  ext1
  rw [bytes, append_assoc, text_ofBytes_append]
  simp [ofBytes]

/-- A string at the beginning is told apart from what follows it. -/
theorem bytes_append_inj {s t : CString} {rest rest' : List UInt8}
    (h : s.bytes ++ rest = t.bytes ++ rest') : s = t ∧ rest = rest' := by
  have hst : s = t := by
    rw [← ofBytes_append s rest, h, ofBytes_append]
  exact ⟨hst, append_cancel_left (hst ▸ h)⟩

end CString

/-- Bytes with a zero byte begin with a string. -/
theorem exists_cstring {bytes : List UInt8} (hmem : (0 : UInt8) ∈ bytes) :
    ∃ (s : CString) (rest : List UInt8), bytes = s.bytes ++ rest := by
  induction bytes with
  | nil => exact absurd hmem not_mem_nil
  | cons c bytes ih =>
    by_cases hc : c = 0
    · exact ⟨⟨[], not_mem_nil⟩, bytes, by simp [CString.bytes, hc]⟩
    · obtain ⟨s, rest, rfl⟩ := ih ((mem_cons.mp hmem).resolve_left (Ne.symm hc))
      refine ⟨⟨c :: s.text, ?_⟩, rest, rfl⟩
      exact fun h => (mem_cons.mp h).elim (fun hc' => hc hc'.symm) s.nul_not_mem

/-- A message in memory and the bytes behind it. -/
structure Buffer where
  data : List UInt8
  behind : ℕ → UInt8

namespace Buffer

variable (buffer : Buffer)

def get (offset : ℕ) : UInt8 :=
  buffer.data.getD offset (buffer.behind (offset - buffer.data.length))

/-- The number in network order at an offset. -/
def load (width offset : ℕ) : ℕ :=
  number ((List.range width).map fun i => buffer.get (offset + i))

/-- `while(count-- && *cur != '\0') cur++`. -/
def scan (cur : ℕ) : ℕ → ℕ
  | 0 => cur
  | count + 1 => if buffer.get cur = 0 then cur else scan (cur + 1) count

def cstring (offset : ℕ) : CString := CString.ofBytes (buffer.data.drop offset)

variable {buffer}

variable {front rest text : List UInt8} {behind : ℕ → UInt8} {count : ℕ}

theorem get_append (i : ℕ) : (Buffer.mk (front ++ rest) behind).get (front.length + i) =
    (Buffer.mk rest behind).get i := by
  simp [get, getElem?_append_right, Nat.add_sub_add_left]

theorem load_append (width i : ℕ) :
    (Buffer.mk (front ++ rest) behind).load width (front.length + i) =
      (Buffer.mk rest behind).load width i := by
  simp [load, Nat.add_assoc, get_append]

theorem load_zero {field : List UInt8} :
    (Buffer.mk (field ++ rest) behind).load field.length 0 = number field := by
  unfold load
  congr 1
  apply ext_getElem
  · simp
  · intro i hi _
    have hlt : i < field.length := by simpa using hi
    simp [get, hlt, getElem?_append_left hlt]

/-- Loading field after field. -/
theorem map_load_fields {width : ℕ} {fields : List (List UInt8)}
    (hwidth : ∀ field ∈ fields, field.length = width) : (List.range fields.length).map (fun i =>
        (Buffer.mk (front ++ (fields.flatten ++ rest)) behind).load width
          (front.length + width * i)) =
      fields.map number := by
  induction fields generalizing front with
  | nil => rfl
  | cons field fields ih =>
    obtain ⟨hfield, hfields⟩ := forall_mem_cons.mp hwidth
    have htail := @ih (front ++ field) hfields
    have hdata : front ++ ((field :: fields).flatten ++ rest) =
        front ++ (field ++ (fields.flatten ++ rest)) := by
      rw [flatten_cons, append_assoc]
    have hoffset : ∀ i, (front ++ field).length + width * i = front.length + width * (i + 1) := by
      intro i
      rw [length_append, hfield]
      ring
    rw [length_cons, range_succ_eq_map, map_cons, map_map, map_cons, hdata, ← htail, load_append]
    congr 1
    · rw [Nat.mul_zero, ← hfield, load_zero]
    · apply map_congr_left
      intro i _
      rw [hoffset, append_assoc]
      rfl

theorem cstring_append (s : CString) :
    (Buffer.mk (front ++ (s.bytes ++ rest)) behind).cstring front.length =
      s := by
  rw [cstring, drop_left, CString.ofBytes_append]

theorem scan_append {front rest : List UInt8} {behind : ℕ → UInt8} (cur count : ℕ) :
    (Buffer.mk (front ++ rest) behind).scan (front.length + cur) count =
    front.length + (Buffer.mk rest behind).scan cur count := by
  induction count generalizing cur with
  | zero => rfl
  | succ count ih =>
    rw [scan, scan, get_append]
    split_ifs
    · rfl
    · exact ih (cur + 1)

/-- The byte that ends a string stops the loop. -/
theorem scan_text (htext : (0 : UInt8) ∉ text) (hcount : text.length < count) :
    (Buffer.mk (text ++ 0 :: rest) behind).scan 0 count = text.length := by
  induction text generalizing count with
  | nil =>
    obtain ⟨count, rfl⟩ := Nat.exists_eq_add_of_lt hcount
    simp [scan, get]
  | cons c text ih =>
    rw [mem_cons, not_or] at htext
    obtain ⟨count, rfl⟩ : ∃ n, count = n + 1 := ⟨count - 1, by omega⟩
    have hstep := @scan_append [c] (text ++ 0 :: rest) behind 0 count
    have hget : (Buffer.mk (c :: text ++ 0 :: rest) behind).get 0 = c := rfl
    rw [scan, hget, if_neg (Ne.symm htext.1)]
    rw [length_cons] at hcount
    refine hstep.trans ?_
    rw [ih htext.2 (by omega), length_singleton, length_cons, Nat.add_comm]

theorem scan_cstring (s : CString) (hcount : s.text.length < count) :
    (Buffer.mk (front ++ (s.bytes ++ rest)) behind).scan front.length count =
      front.length + s.text.length := by
  have happend := @scan_append front (s.bytes ++ rest) behind 0 count
  have hbytes : s.bytes ++ rest = s.text ++ 0 :: rest := by
    simp [CString.bytes]
  rw [Nat.add_zero, hbytes, scan_text s.nul_not_mem hcount] at happend
  rw [hbytes]
  exact happend

theorem scan_le (cur count : ℕ) : buffer.scan cur count ≤ cur + count := by
  induction count generalizing cur with
  | zero => exact le_rfl
  | succ count ih =>
    rw [scan]
    split_ifs
    · exact Nat.le_add_right _ _
    · have hstep := ih (cur + 1)
      omega

/-- A zero byte that the loop comes to stops it. -/
theorem scan_le_of_get {cur i : ℕ} (hi : buffer.get i = 0)
    (hcur : cur ≤ i) : buffer.scan cur count ≤ i := by
  induction count generalizing cur with
  | zero => exact hcur
  | succ count ih =>
    rw [scan]
    split_ifs with hget
    · exact hcur
    · have hne : cur ≠ i := fun heq => hget (heq ▸ hi)
      exact ih (by omega)

/-- Without a zero byte the loop passes the whole text. -/
theorem le_scan_of_not_mem (htext : (0 : UInt8) ∉ text) (hcount : text.length ≤ count) :
    text.length ≤ (Buffer.mk text behind).scan 0 count := by
  induction text generalizing count with
  | nil => exact Nat.zero_le _
  | cons c text ih =>
    rw [mem_cons, not_or] at htext
    rw [length_cons] at hcount
    obtain ⟨count, rfl⟩ : ∃ n, count = n + 1 := ⟨count - 1, by omega⟩
    have hstep : (Buffer.mk (c :: text) behind).scan 1 count =
        1 + (Buffer.mk text behind).scan 0 count :=
      @scan_append [c] text behind 0 count
    have hget : (Buffer.mk (c :: text) behind).get 0 = c := rfl
    have hrest := ih htext.2 (Nat.le_of_succ_le_succ hcount)
    rw [scan, hget, if_neg (Ne.symm htext.1), hstep, length_cons]
    omega

/-- The byte that ends a string. -/
theorem get_cstring_end (s : CString) : (Buffer.mk (front ++ (s.bytes ++ rest)) behind).get
    (front.length + s.text.length) = 0 := by
  simp [get, CString.bytes]

/-- Where the loop stops before the end of the message, a string ends. -/
theorem scan_stops_iff {front tail : List UInt8} {behind : ℕ → UInt8} {stop : ℕ} :
    ((Buffer.mk (front ++ tail) behind).scan front.length tail.length = stop ∧
    ¬(stop = (front ++ tail).length ∨ (Buffer.mk (front ++ tail) behind).get stop ≠ 0)) ↔
    ∃ (s : CString) (rest : List UInt8), tail = s.bytes ++ rest ∧
    stop = front.length + s.text.length := by
  constructor
  · rintro ⟨rfl, hstop⟩
    rw [not_or] at hstop
    by_cases hmem : (0 : UInt8) ∈ tail
    · obtain ⟨s, rest, rfl⟩ := exists_cstring hmem
      exact ⟨s, rest, rfl, scan_cstring s (by simp; omega)⟩
    · refine absurd (le_antisymm ?_ ?_) hstop.1
      · rw [length_append]
        exact scan_le _ _
      · rw [length_append, ← Nat.add_zero front.length, scan_append]
        exact Nat.add_le_add_left (le_scan_of_not_mem hmem le_rfl) _
  · rintro ⟨s, rest, rfl, rfl⟩
    refine ⟨scan_cstring s (by simp; omega), ?_⟩
    rw [get_cstring_end]
    simp
    omega

end Buffer

theorem length_flatten_fields {width : ℕ} {fields : List (List UInt8)}
    (hwidth : ∀ field ∈ fields, field.length = width) :
    fields.flatten.length = width * fields.length := by
  induction fields with
  | nil => rfl
  | cons field fields ih =>
    obtain ⟨hfield, hfields⟩ := forall_mem_cons.mp hwidth
    rw [flatten_cons, length_append, hfield, ih hfields, length_cons]
    ring

/-- Bytes of a length that is a multiple of the width are fields. -/
theorem exists_fields {width num : ℕ} {bytes : List UInt8} (hlength : bytes.length = width * num) :
    ∃ fields : List (List UInt8), bytes = fields.flatten ∧
    fields.length = num ∧ ∀ field ∈ fields, field.length = width := by
  induction num generalizing bytes with
  | zero =>
    have hnil : bytes = [] := length_eq_zero_iff.mp (by simpa using hlength)
    exact ⟨[], by simp [hnil], rfl, by simp⟩
  | succ num ih =>
    rw [Nat.mul_succ] at hlength
    obtain ⟨fields, hbytes, hnum, hwidth⟩ :=
      @ih (bytes.drop width) (by rw [length_drop]; omega)
    have htake : (bytes.take width).length = width := by
      rw [length_take]
      omega
    refine ⟨bytes.take width :: fields, ?_, by rw [length_cons, hnum],
      forall_mem_cons.mpr ⟨htake, hwidth⟩⟩
    rw [flatten_cons, ← hbytes, take_append_drop]

end MessageBytes
