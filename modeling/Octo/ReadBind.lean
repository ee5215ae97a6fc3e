/-
The Bind message of a client.  A parameter of length -1, which the protocol
uses for NULL, moves the position of the reader back into the length itself, so
a message with such a parameter is not read as it was sent.
-/
import Octo.MessageMemory
import Octo.ReadMessage

namespace Octo

open MessageBytes List Memory

namespace RoctoError

def invalidIntValue (name field : String) (actual : ℤ) (expected : String) : String :=
  name ++ ": invalid " ++ field ++ " value " ++ toString actual ++ ": must be " ++ expected

def tooFewValues (name field : String) : String := name ++ ": too few " ++ field

end RoctoError

inductive Format
  | text | binary
deriving DecidableEq, Repr

def Format.code : Format → UInt8
  | text => 0
  | binary => 1

def Format.bytes (format : Format) : List UInt8 := [0, format.code]

/-- A code as `ntohs` leaves it in the message. -/
def Format.hostBytes (format : Format) : List UInt8 := [format.code, 0]

/-- Counted codes, as they are sent. -/
def Format.encode (formats : List Format) : List UInt8 :=
  bigEndian 2 formats.length ++ formats.flatMap Format.bytes

theorem Format.length_flatMap_bytes (formats : List Format) :
    (formats.flatMap Format.bytes).length = 2 * formats.length := by
  induction formats with
  | nil => rfl
  | cons format formats ih =>
    rw [flatMap_cons, length_append, ih, length_cons]
    simp [Format.bytes]
    omega

theorem Format.length_encode (formats : List Format) :
    (Format.encode formats).length = 2 + 2 * formats.length := by
  rw [Format.encode, length_append, length_bigEndian, Format.length_flatMap_bytes]

theorem Format.holds_encode_iff {mem : Memory} {p : ℤ} {formats : List Format} :
    mem.Holds p (Format.encode formats) ↔ mem.Holds p (bigEndian 2 formats.length) ∧
    mem.Holds (p + 2) (formats.flatMap Format.bytes) := by
  rw [Format.encode, holds_append, length_bigEndian]
  rfl

structure BindParm where
  length : ℤ
  value : ℤ
deriving DecidableEq

/-- `Bind`.  Its pointers are positions in the memory that it leaves. -/
structure Bind where
  memory : Memory
  dest : ℤ
  source : ℤ
  numParmFormatCodes : ℕ
  parmFormatCodes : ℤ
  parms : List BindParm
  numResultColFormatCodes : ℕ
  resultColFormatCodes : ℤ

def psqlBind : UInt8 := 66

/-- The copy of the message, and what is in front of it: the header, the other
members of the structure, and memory of others. -/
def BaseMessage.memory (message : BaseMessage) (heap : NextBlock)
    (before : ℕ → UInt8) : Memory := fun p =>
  if p < 0 then before (-p - 1).toNat
  else (message.copy 4 heap).get p.toNat

namespace ReadBind

def fail {α : Type} (text : String) : Except ErrorResponse α :=
  .error ⟨.error, .protocolViolation, text⟩

/-- The two strings: the position of the second one, and of what follows. -/
def readNames (message : BaseMessage) (heap : NextBlock) : Except ErrorResponse (ℕ × ℕ) :=
  let buffer := message.copy 4 heap
  let lastByte := message.data.length
  let cur := buffer.scan 0 lastByte
  if cur = lastByte ∨ buffer.get cur ≠ 0 then
    fail (RoctoError.missingNull "Bind" "destination")
  else
    let source := cur + 1
    let cur := buffer.scan source (lastByte - source)
    if cur = lastByte ∨ buffer.get cur ≠ 0 then
      fail (RoctoError.missingNull "Bind" "source")
    else .ok (source, cur + 1)

/-- The loop over format codes: each is checked and kept in host order. -/
def swapCodes (field : String) (mem : Memory) (p : ℤ) : ℕ → Except ErrorResponse Memory
  | 0 => .ok mem
  | n + 1 =>
    let code := signed 2 (mem.load 2 p)
    if code ≠ 0 ∧ code ≠ 1 then
      fail (RoctoError.invalidIntValue "Bind" field code "0 (text) or 1 (binary)")
    else swapCodes field (mem.swap p) (p + 2) n

def readParmFormatCodes (mem : Memory) (lastByte cur : ℤ) : Except ErrorResponse (ℕ × Memory) :=
  let num := signed 2 (mem.load 2 cur)
  if num < 0 then
    fail (RoctoError.invalidNumber "Bind" "parameter format codes")
  else if cur + 2 > lastByte then
    fail (RoctoError.missingData "Bind" "number of parameter format codes")
  else if cur + 2 + 2 * num > lastByte then
    fail (RoctoError.missingData "Bind" "parameter format codes")
  else
    (swapCodes "parameter format code" mem (cur + 2) num.toNat).map fun mem =>
      (num.toNat, mem)

def parmLoop (mem : Memory) (lastByte : ℤ) : ℕ → ℤ → Except ErrorResponse (List BindParm × ℤ)
  | 0, cur => .ok ([], cur)
  | n + 1, cur =>
    if cur + 4 > lastByte then
      fail (RoctoError.missingData "Bind" "parameters")
    else
      let length := signed 4 (mem.load 4 cur)
      if cur + 4 + length > lastByte then
        fail (RoctoError.missingData "Bind" "parameters")
      else
        (parmLoop mem lastByte n (cur + 4 + length)).map fun rest =>
          (⟨length, cur + 4⟩ :: rest.1, rest.2)

/-- The parameters and the position behind them. -/
def readParms (mem : Memory) (numParmFormatCodes : ℕ) (lastByte cur : ℤ) :
    Except ErrorResponse (List BindParm × ℤ) :=
  let num := signed 2 (mem.load 2 cur)
  if num < 0 then fail (RoctoError.invalidNumber "Bind" "parameters")
  else if numParmFormatCodes > num then
    fail (RoctoError.tooManyValues "Bind" "parameter format codes")
  else if numParmFormatCodes > 1 ∧ numParmFormatCodes ≠ num then
    fail (RoctoError.tooFewValues "Bind" "parameter format codes")
  else if cur + 2 > lastByte then
    fail (RoctoError.missingData "Bind" "parameters")
  else parmLoop mem lastByte num.toNat (cur + 2)

/-- The format codes of the result.  Nothing is checked if there are none. -/
def readResultFormatCodes (mem : Memory) (lastByte cur : ℤ) : Except ErrorResponse (ℕ × Memory) :=
  let num := signed 2 (mem.load 2 cur)
  if num < 0 then
    fail (RoctoError.invalidNumber "Bind" "result column format codes")
  else if num > 0 ∧ cur + 2 + 2 * num > lastByte then
    fail (RoctoError.missingData "Bind" "result column format codes")
  else
    (swapCodes "result column format code" mem (cur + 2) num.toNat).map fun mem => (num.toNat, mem)

end ReadBind

open ReadBind in
/-- The result, and the warning that is left in `err` next to it. -/
def readBind (message : BaseMessage) (heap : NextBlock) (before : ℕ → UInt8) :
    Except ErrorResponse (Bind × Option ErrorResponse) :=
  if message.copiedType ≠ psqlBind then
    fail (RoctoError.invalidType "Bind" message.copiedType psqlBind)
  else do
    let lastByte : ℤ := message.data.length
    let (source, cur) ← readNames message heap
    let (numCodes, mem) ← readParmFormatCodes (message.memory heap before) lastByte cur
    let codes : ℤ := cur + 2
    let (parms, cur) ← readParms mem numCodes lastByte (codes + 2 * numCodes)
    let (numResult, mem) ← readResultFormatCodes mem lastByte cur
    let warning :=
      if cur + 2 + 2 * numResult ≠ lastByte then
        some ⟨.warning, .protocolViolation, RoctoError.trailingChars "Bind"⟩
      else none
    return (⟨mem, 0, source, numCodes, codes, parms, numResult, cur + 2⟩, warning)

namespace ReadBind

section Results

variable {ε α β : Type}

variable {x : Except ε α} {f : α → Except ε β}

theorem map_eq_ok_iff {f : α → β} {b : β} : x.map f = .ok b ↔ ∃ a, x = .ok a ∧ f a = b := by
  cases x <;> simp [Except.map]

theorem bind_eq_of_ok {a : α} (h : x = .ok a) : (x >>= f) = f a := by
  rw [h]
  rfl

theorem bind_eq_of_error {e : ε} (h : x = .error e) : (x >>= f) = .error e := by
  rw [h]
  rfl

theorem bind_eq_ok_iff {b : β} : (x >>= f) = .ok b ↔ ∃ a, x = .ok a ∧ f a = .ok b := by
  cases x <;> simp [bind, Except.bind]

end Results

/-- The loop over the parameters as a relation: how the lengths that are met
move the position. -/
inductive Jumps (mem : Memory) (lastByte : ℤ) : ℤ → List BindParm → ℤ → Prop
  | nil {cur : ℤ} : Jumps mem lastByte cur [] cur
  | cons {cur stop length : ℤ} {parms : List BindParm} (hfield : cur + 4 ≤ lastByte)
      (hlength : signed 4 (mem.load 4 cur) = length) (hvalue : cur + 4 + length ≤ lastByte)
      (hrest : Jumps mem lastByte (cur + 4 + length) parms stop) :
      Jumps mem lastByte cur (⟨length, cur + 4⟩ :: parms) stop

section Parts

variable {message : BaseMessage} {heap : NextBlock} {mem mem' : Memory} {lastByte cur : ℤ}

theorem readNames_eq_ok_iff {source stop : ℕ} : readNames message heap = .ok (source, stop) ↔
    ∃ (dest name : CString) (tail : List UInt8), message.data = dest.bytes ++ (name.bytes ++ tail) ∧
    source = dest.bytes.length ∧ stop = dest.bytes.length + name.bytes.length := by
  have hnil : message.data = [] ++ message.data := rfl
  have hfirst := fun stop => @BaseMessage.copy_scan_eq_iff message heap 4 _ _ stop hnil
  have hsecond := fun (dest : CString) rest stop (hdata : message.data = dest.bytes ++ rest) =>
      @BaseMessage.copy_scan_eq_iff message heap 4 _ _ stop hdata
  simp only [length_nil, Nat.zero_add] at hfirst
  constructor
  · intro h
    simp only [readNames, fail] at h
    split_ifs at h with hdest hname
    obtain ⟨dest, rest, hdata, hstop⟩ := (hfirst _).mp ⟨rfl, hdest⟩
    have hrest : message.data.length - dest.bytes.length = rest.length := by
      rw [hdata, length_append]
      omega
    rw [hstop, ← CString.length_bytes, hrest] at hname h
    obtain ⟨name, tail, rfl, hend⟩ := (hsecond dest rest _ hdata).mp ⟨rfl, hname⟩
    rw [hend] at h
    obtain ⟨rfl, rfl⟩ := Prod.mk.inj (Except.ok.inj h)
    exact ⟨dest, name, tail, hdata, rfl, by rw [CString.length_bytes name]; rfl⟩
  · rintro ⟨dest, name, tail, hdata, rfl, rfl⟩
    obtain ⟨hscan, hdest⟩ := (hfirst _).mpr ⟨dest, _, hdata, rfl⟩
    obtain ⟨hscanName, hname⟩ :=
      (hsecond dest _ _ hdata).mpr ⟨name, tail, rfl, rfl⟩
    have hrest : message.data.length - dest.bytes.length = (name.bytes ++ tail).length := by
      rw [hdata, length_append]
      omega
    simp only [readNames, hscan, if_neg hdest, ← CString.length_bytes, hrest,
      hscanName, if_neg hname]
    rw [CString.length_bytes name]
    rfl

/-- A number of two bytes is negative or small. -/
theorem short_cases (mem : Memory) (p : ℤ) : signed 2 (mem.load 2 p) < 0 ∨
      ∃ n : ℕ, n < 2 ^ 15 ∧ signed 2 (mem.load 2 p) = n := by
  have hload := number_lt (mem.read 2 p)
  rw [length_read] at hload
  unfold signed
  split_ifs with hsmall
  · exact .inr ⟨_, by omega, rfl⟩
  · left
    unfold Memory.load
    omega

variable {p stop : ℤ} {n num : ℕ} {parms : List BindParm}

/-- A number of two bytes that is not negative. -/
theorem short_eq_iff (hn : n < 2 ^ 15) :
    signed 2 (mem.load 2 p) = n ↔ mem.Holds p (bigEndian 2 n) := by
  have hwidth : n < 256 ^ 2 := lt_trans hn (by decide)
  constructor
  · intro h
    have hload : mem.load 2 p = n := by
      unfold signed at h
      split_ifs at h with hsmall
      · exact_mod_cast h
      · have hlt := number_lt (mem.read 2 p)
        rw [length_read] at hlt
        unfold Memory.load at h
        omega
    rw [← hload]
    exact holds_bigEndian_load 2
  · intro h
    rw [h.load_eq (length_bigEndian 2 n), number_bigEndian hwidth]
    exact signed_of_lt (by omega)

/-- Codes are zero and one. -/
theorem code_ok_iff : ¬(signed 2 (mem.load 2 p) ≠ 0 ∧ signed 2 (mem.load 2 p) ≠ 1) ↔ ∃ format :
    Format, mem.Holds p format.bytes := by
  have hzero : signed 2 (mem.load 2 p) = 0 ↔ mem.Holds p Format.text.bytes :=
    short_eq_iff (n := 0) (by decide)
  have hone : signed 2 (mem.load 2 p) = 1 ↔ mem.Holds p Format.binary.bytes :=
    short_eq_iff (n := 1) (by decide)
  rw [not_and_or, not_not, not_not, hzero, hone]
  constructor
  · rintro (h | h)
    · exact ⟨.text, h⟩
    · exact ⟨.binary, h⟩
  · rintro ⟨_ | _, h⟩
    · exact .inl h
    · exact .inr h

theorem swapCodes_eq_ok_iff {field : String} : swapCodes field mem p n = .ok mem' ↔
    (∃ formats : List Format, formats.length = n ∧ mem.Holds p (formats.flatMap Format.bytes)) ∧
    mem' = mem.swaps p n := by
  induction n generalizing mem p with
  | zero =>
    rw [swapCodes, Memory.swaps, Except.ok.injEq, eq_comm]
    exact iff_and_self.mpr fun _ => ⟨[], rfl, holds_nil⟩
  | succ n ih =>
    have hbehind : ∀ formats : List Format,
        (mem.swap p).Holds (p + 2) (formats.flatMap Format.bytes) ↔
          mem.Holds (p + 2) (formats.flatMap Format.bytes) := fun formats =>
      holds_swaps_iff (n := 1) (.inr le_rfl)
    simp only [swapCodes, fail]
    split_ifs with hcode
    · refine iff_of_false (by simp) ?_
      rintro ⟨⟨formats, hlength, hholds⟩, -⟩
      cases formats with
      | nil => cases hlength
      | cons format formats =>
        rw [flatMap_cons, holds_append] at hholds
        exact code_ok_iff.mpr ⟨format, hholds.1⟩ hcode
    · rw [ih, Memory.swaps]
      refine and_congr_left fun _ => ?_
      constructor
      · rintro ⟨formats, hlength, hholds⟩
        obtain ⟨format, hformat⟩ := code_ok_iff.mp hcode
        refine ⟨format :: formats, by rw [length_cons, hlength], ?_⟩
        rw [flatMap_cons, holds_append]
        exact ⟨hformat, (hbehind formats).mp hholds⟩
      · rintro ⟨formats, hlength, hholds⟩
        cases formats with
        | nil => cases hlength
        | cons format formats =>
          rw [flatMap_cons, holds_append] at hholds
          exact ⟨formats, Nat.succ.inj hlength, (hbehind formats).mpr hholds.2⟩

/-- A count and the codes behind it, once the count is not negative. -/
theorem count_and_codes_iff {field : String} (hlt : num < 2 ^ 15)
    (hnum : signed 2 (mem.load 2 p) = num) :
    ((swapCodes field mem (p + 2) num).map fun mem => (num, mem)) = .ok (n, mem') ↔
    n = num ∧ ∃ formats : List Format, formats.length = num ∧ mem.Holds p (Format.encode formats) ∧
    mem' = mem.swaps (p + 2) formats.length := by
  rw [map_eq_ok_iff]
  constructor
  · rintro ⟨mem'', hswap, hpair⟩
    cases hpair
    obtain ⟨⟨formats, rfl, hholds⟩, rfl⟩ := swapCodes_eq_ok_iff.mp hswap
    exact ⟨rfl, formats, rfl, Format.holds_encode_iff.mpr ⟨(short_eq_iff hlt).mp hnum, hholds⟩, rfl⟩
  · rintro ⟨rfl, formats, rfl, hholds, rfl⟩
    exact ⟨_, swapCodes_eq_ok_iff.mpr
      ⟨⟨formats, rfl, (Format.holds_encode_iff.mp hholds).2⟩, rfl⟩, rfl⟩

/-- What is accepted begins with a count. -/
theorem short_of_holds {formats : List Format} (hlt : formats.length < 2 ^ 15)
    (hholds : mem.Holds p (Format.encode formats)) : signed 2 (mem.load 2 p) = formats.length :=
  (short_eq_iff hlt).mpr (Format.holds_encode_iff.mp hholds).1

theorem readParmFormatCodes_eq_ok_iff : readParmFormatCodes mem lastByte cur = .ok (num, mem') ↔
    ∃ formats : List Format, num = formats.length ∧ formats.length < 2 ^ 15 ∧
    mem.Holds cur (Format.encode formats) ∧ cur + 2 + 2 * formats.length ≤ lastByte ∧
    mem' = mem.swaps (cur + 2) formats.length := by
  simp only [readParmFormatCodes, fail]
  constructor
  · intro h
    split_ifs at h with hnegative hcount hcodes
    obtain ⟨n, hlt, hnum⟩ := (short_cases mem cur).resolve_left hnegative
    rw [hnum, Int.toNat_natCast, count_and_codes_iff hlt hnum] at h
    obtain ⟨rfl, formats, rfl, hholds, hmem⟩ := h
    exact ⟨formats, rfl, hlt, hholds, by omega, hmem⟩
  · rintro ⟨formats, rfl, hlt, hholds, hfits, hmem⟩
    have hnum := short_of_holds hlt hholds
    rw [hnum, if_neg (by omega), if_neg (by omega), if_neg (by omega),
      Int.toNat_natCast, count_and_codes_iff hlt hnum]
    exact ⟨rfl, formats, rfl, hholds, hmem⟩

theorem readResultFormatCodes_eq_ok_iff : readResultFormatCodes mem lastByte cur = .ok (num, mem') ↔
    ∃ formats : List Format, num = formats.length ∧ formats.length < 2 ^ 15 ∧
    mem.Holds cur (Format.encode formats) ∧
    (0 < formats.length → cur + 2 + 2 * formats.length ≤ lastByte) ∧
    mem' = mem.swaps (cur + 2) formats.length := by
  simp only [readResultFormatCodes, fail]
  constructor
  · intro h
    split_ifs at h with hnegative hcodes
    obtain ⟨n, hlt, hnum⟩ := (short_cases mem cur).resolve_left hnegative
    rw [hnum, Int.toNat_natCast, count_and_codes_iff hlt hnum] at h
    obtain ⟨rfl, formats, rfl, hholds, hmem⟩ := h
    exact ⟨formats, rfl, hlt, hholds, by omega, hmem⟩
  · rintro ⟨formats, rfl, hlt, hholds, hfits, hmem⟩
    have hnum := short_of_holds hlt hholds
    rw [hnum, if_neg (by omega), if_neg (by omega), Int.toNat_natCast, count_and_codes_iff hlt hnum]
    exact ⟨rfl, formats, rfl, hholds, hmem⟩

theorem parmLoop_eq_ok_iff : parmLoop mem lastByte n cur = .ok (parms, stop) ↔
      parms.length = n ∧ Jumps mem lastByte cur parms stop := by
  induction n generalizing cur parms with
  | zero =>
    rw [parmLoop, Except.ok.injEq, Prod.mk.injEq, length_eq_zero_iff]
    constructor
    · rintro ⟨rfl, rfl⟩
      exact ⟨rfl, .nil⟩
    · rintro ⟨rfl, hjumps⟩
      cases hjumps
      exact ⟨rfl, rfl⟩
  | succ n ih =>
    simp only [parmLoop, fail]
    constructor
    · intro h
      split_ifs at h with hfield hvalue
      obtain ⟨⟨rest, stop'⟩, hrest, ⟨⟩⟩ := map_eq_ok_iff.mp h
      obtain ⟨hlength, hjumps⟩ := ih.mp hrest
      exact ⟨by rw [length_cons, hlength], .cons (not_lt.mp hfield) rfl (not_lt.mp hvalue) hjumps⟩
    · rintro ⟨hlength, hjumps⟩
      cases hjumps with
      | nil => cases hlength
      | cons hfield hsigned hvalue hrest =>
        subst hsigned
        rw [if_neg (not_lt.mpr hfield), if_neg (not_lt.mpr hvalue), map_eq_ok_iff]
        exact ⟨(_, stop), ih.mpr ⟨Nat.succ.inj hlength, hrest⟩, rfl⟩

theorem readParms_eq_ok_iff : readParms mem num lastByte cur = .ok (parms, stop) ↔
    parms.length < 2 ^ 15 ∧ mem.Holds cur (bigEndian 2 parms.length) ∧
    (num ≤ parms.length ∧ (num ≤ 1 ∨ num = parms.length)) ∧
    cur + 2 ≤ lastByte ∧ Jumps mem lastByte (cur + 2) parms stop := by
  simp only [readParms, fail]
  constructor
  · intro h
    split_ifs at h with hnegative hmany hfew hmissing
    obtain ⟨n, hlt, hnum⟩ := (short_cases mem cur).resolve_left hnegative
    rw [hnum, Int.toNat_natCast] at h
    obtain ⟨rfl, hjumps⟩ := parmLoop_eq_ok_iff.mp h
    exact ⟨hlt, (short_eq_iff hlt).mp hnum, by omega, by omega, hjumps⟩
  · rintro ⟨hlt, hholds, hcodes, hfits, hjumps⟩
    have hnum := (short_eq_iff hlt).mpr hholds
    rw [hnum, if_neg (by omega), if_neg (by omega), if_neg (by omega),
      if_neg (by omega), Int.toNat_natCast]
    exact parmLoop_eq_ok_iff.mpr ⟨rfl, hjumps⟩

end Parts

/-- A message that is accepted without a warning: its strings, its counted
codes, and a walk over parameters from which the result codes fill the rest. -/
structure Accepted (message : BaseMessage) (mem : Memory) (source cur : ℕ)
    (formats : List Format) (parms : List BindParm) (stop : ℤ) (results : List Format) : Prop where
  type : message.copiedType = psqlBind
  names : ∃ (dest name : CString) (tail : List UInt8),
    message.data = dest.bytes ++ (name.bytes ++ tail) ∧ source = dest.bytes.length ∧
    cur = dest.bytes.length + name.bytes.length
  formats_lt : formats.length < 2 ^ 15
  formats_hold : mem.Holds cur (Format.encode formats)
  parms_lt : parms.length < 2 ^ 15
  count_holds : (mem.swaps (cur + 2) formats.length).Holds
    (cur + 2 + 2 * formats.length) (bigEndian 2 parms.length)
  codes : formats.length ≤ parms.length ∧ (formats.length ≤ 1 ∨ formats.length = parms.length)
  count_fits : (cur : ℤ) + 2 + 2 * formats.length + 2 ≤ message.data.length
  jumps : Jumps (mem.swaps (cur + 2) formats.length) message.data.length
    (cur + 2 + 2 * formats.length + 2) parms stop
  results_lt : results.length < 2 ^ 15
  results_hold : (mem.swaps (cur + 2) formats.length).Holds stop (Format.encode results)
  finish : stop + 2 + 2 * results.length = message.data.length

def Accepted.bind (mem : Memory) (source cur : ℕ) (formats : List Format)
    (parms : List BindParm) (stop : ℤ) (results : List Format) : Bind where
  memory := (mem.swaps (cur + 2) formats.length).swaps (stop + 2) results.length
  dest := 0
  source := source
  numParmFormatCodes := formats.length
  parmFormatCodes := cur + 2
  parms := parms
  numResultColFormatCodes := results.length
  resultColFormatCodes := stop + 2

theorem readBind_eq_ok_none_iff {message : BaseMessage} {heap : NextBlock} {before : ℕ → UInt8}
    {bind : Bind} : readBind message heap before = .ok (bind, none) ↔
    ∃ source cur formats parms stop results,
    Accepted message (message.memory heap before) source cur formats parms stop results ∧
    bind = Accepted.bind (message.memory heap before) source cur formats parms stop results := by
  unfold readBind
  constructor
  · intro h
    split_ifs at h with htype
    · cases h
    · simp only [bind_eq_ok_iff] at h
      obtain ⟨⟨source, cur⟩, hnames, ⟨numCodes, mem⟩, hcodes, ⟨parms, stop⟩,
        hparms, ⟨numResult, mem'⟩, hresults, hreturn⟩ := h
      obtain ⟨formats, rfl, hformats, hholds, hfit, rfl⟩ :=
        readParmFormatCodes_eq_ok_iff.mp hcodes
      obtain ⟨hparmsLt, hcount, hcounts, hcountFits, hjumps⟩ :=
        readParms_eq_ok_iff.mp hparms
      obtain ⟨results, rfl, hresultsLt, hresultsHold, -, rfl⟩ :=
        readResultFormatCodes_eq_ok_iff.mp hresults
      obtain ⟨hbind, hwarning⟩ := Prod.mk.inj (Except.ok.inj hreturn)
      have hfinish : stop + 2 + 2 * results.length = message.data.length := by
        by_contra hne
        rw [if_pos hne] at hwarning
        cases hwarning
      exact ⟨source, cur, formats, parms, stop, results,
        ⟨not_not.mp htype, readNames_eq_ok_iff.mp hnames, hformats, hholds,
          hparmsLt, hcount, hcounts, hcountFits, hjumps, hresultsLt,
          hresultsHold, hfinish⟩, hbind.symm⟩
  · rintro ⟨source, cur, formats, parms, stop, results, haccepted, rfl⟩
    have hfits := haccepted.count_fits
    have hfinish := haccepted.finish
    have hnames : readNames message heap = .ok (source, cur) :=
      readNames_eq_ok_iff.mpr haccepted.names
    have hcodes : readParmFormatCodes (message.memory heap before)
        message.data.length cur = .ok (formats.length, _) :=
      readParmFormatCodes_eq_ok_iff.mpr ⟨formats, rfl, haccepted.formats_lt,
        haccepted.formats_hold, by omega, rfl⟩
    have hparms := readParms_eq_ok_iff.mpr ⟨haccepted.parms_lt,
      haccepted.count_holds, haccepted.codes, haccepted.count_fits, haccepted.jumps⟩
    have hresults := readResultFormatCodes_eq_ok_iff.mpr ⟨results, rfl,
      haccepted.results_lt, haccepted.results_hold, fun _ => hfinish.le, rfl⟩
    rw [if_neg (not_not.mpr haccepted.type)]
    refine (bind_eq_of_ok hnames).trans ?_
    refine (bind_eq_of_ok hcodes).trans ?_
    refine (bind_eq_of_ok hparms).trans ?_
    refine (bind_eq_of_ok hresults).trans ?_
    simp only [hfinish, ne_eq, not_true_eq_false, if_false]
    rfl

end ReadBind

end Octo
