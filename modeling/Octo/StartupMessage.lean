/-
The first message of a client: its length, the version of the protocol, and a
list of parameters.  The bytes of the list are read from the connection into
fresh memory, and it is not looked at how many came.
-/
import Octo.MessageMemory
import Octo.ReadMessage

namespace Octo

open MessageBytes List CString

namespace RoctoError

/-- `%x` of a number. -/
def hexText (n : ℕ) : String := String.ofList (Nat.toDigits 16 n)

def invalidVersion (name : String) (actual expected : ℕ) : String :=
  name ++ ": invalid version " ++ hexText actual ++ ": must be " ++ hexText expected

end RoctoError

abbrev StartupMessageParm := CString × CString

def protocolVersion : UInt32 := 0x00030000

namespace StartupMessage

/-- The length as an `int`, without the two numbers at the beginning: where the
message ends, counted from the list. -/
def messageEnd (length : UInt32) : ℤ := signed 4 length.toNat - 8

/-- The fresh memory after `read_bytes`, which reads as many bytes as the
connection still gives, and none if it is asked for less than none. -/
def block (length : UInt32) (stream : List UInt8) (heap : ℕ → UInt8) : Buffer where
  data := (List.range (messageEnd length).toNat).map fun i =>
    stream.getD i (heap i)
  behind i := heap ((messageEnd length).toNat + i)

/-- `c < message_end && *c != '\0'`. -/
def more (buffer : Buffer) (messageEnd : ℤ) (c : ℕ) : Prop :=
  c < messageEnd ∧ buffer.get c ≠ 0

instance (buffer : Buffer) (messageEnd : ℤ) (c : ℕ) : Decidable (more buffer messageEnd c) :=
  inferInstanceAs (Decidable (_ ∧ _))

/-- `for(; c < message_end && *c != '\0'; c++)`. -/
def skip (buffer : Buffer) (messageEnd : ℤ) (c : ℕ) : ℕ :=
  buffer.scan c (messageEnd - c).toNat

/-- `c == message_end || *c != '\0'`. -/
def unended (buffer : Buffer) (messageEnd : ℤ) (c : ℕ) : Prop :=
  c = messageEnd ∨ buffer.get c ≠ 0

instance (buffer : Buffer) (messageEnd : ℤ) (c : ℕ) : Decidable (unended buffer messageEnd c) :=
  inferInstanceAs (Decidable (_ ∨ _))

def fail {α : Type} (text : String) : Except ErrorResponse α :=
  .error ⟨.error, .protocolViolation, text⟩

/-- The first loop: the parameters are counted, and every one is checked. -/
def count (buffer : Buffer) (messageEnd : ℤ) : ℕ → ℕ → ℕ → Except ErrorResponse (ℕ × ℕ)
  | 0, c, num => .ok (num, c)
  | fuel + 1, c, num =>
    if more buffer messageEnd c then
      let c := skip buffer messageEnd c
      if unended buffer messageEnd c then
        fail (RoctoError.missingData "StartupMessage" "parameter name")
      else
        let c := skip buffer messageEnd (c + 1)
        if unended buffer messageEnd c then
          fail (RoctoError.missingNull "StartupMessage" "name or value")
        else count buffer messageEnd fuel (c + 1) (num + 1)
    else .ok (num, c)

/-- The second loop fills as many parameters as were counted.  It stops the
process if a string does not end, or if there is no place for a parameter. -/
def fill (buffer : Buffer) (messageEnd : ℤ) : ℕ → ℕ → ℕ → Option (List StartupMessageParm)
  | 0, _, _ => some []
  | fuel + 1, c, places =>
    if more buffer messageEnd c then
      let name := c
      let c := skip buffer messageEnd c
      if places = 0 ∨ buffer.get c ≠ 0 then none
      else
        let value := c + 1
        let c := skip buffer messageEnd value
        if buffer.get c ≠ 0 then none
        else
          (fill buffer messageEnd fuel (c + 1) (places - 1)).map
            ((buffer.cstring name, buffer.cstring value) :: ·)
    else some []

/-- What follows once the memory is there. -/
def readList (buffer : Buffer) (messageEnd : ℤ) (fuel : ℕ) :
    Option (Except ErrorResponse (List StartupMessageParm)) :=
  match count buffer messageEnd fuel 0 0 with
  | .error err => some (.error err)
  | .ok (num, c) =>
    if unended buffer messageEnd c then
      some (fail (RoctoError.missingNull "StartupMessage" "parameter list"))
    else if (c + 1 : ℤ) ≠ messageEnd then
      some (fail (RoctoError.trailingChars "StartupMessage"))
    else (fill buffer messageEnd fuel 0 num).map .ok

end StartupMessage

open StartupMessage in
/-- The parameters or an error; none if the process is stopped, as by a
negative length, for which no memory is given. -/
def readStartupMessage (length version : UInt32) (stream : List UInt8) (heap : ℕ → UInt8) :
    Option (Except ErrorResponse (List StartupMessageParm)) :=
  if version ≠ protocolVersion then
    some (.error ⟨.fatal, .protocolViolation, RoctoError.invalidVersion
      "StartupMessage" version.toNat protocolVersion.toNat⟩)
  else if length = 8 then
    some (.error ⟨.fatal, .protocolViolation,
      RoctoError.missingNull "StartupMessage" "parameter list"⟩)
  else if 20 + messageEnd length < 0 then none
  else
    readList (block length stream heap) (messageEnd length) ((messageEnd length).toNat + 1)

namespace StartupMessage

def encodeParms (parms : List StartupMessageParm) : List UInt8 :=
  parms.flatMap fun parm => parm.1.bytes ++ parm.2.bytes

/-- The list as it is sent: one more NUL closes it. -/
def encode (parms : List StartupMessageParm) : List UInt8 :=
  encodeParms parms ++ [0]

def Named (parms : List StartupMessageParm) : Prop :=
  ∀ parm ∈ parms, parm.1.text ≠ []

section Loops

variable {buffer : Buffer} {front tail rest : List UInt8} {name value : CString}

theorem not_more_iff (hdata : buffer.data = front ++ tail) :
    ¬more buffer buffer.data.length front.length ↔ tail = [] ∨ ∃ rest, tail = 0 :: rest := by
  obtain ⟨data, behind⟩ := buffer
  obtain rfl : data = front ++ tail := hdata
  rw [more, ← Nat.add_zero front.length, Buffer.get_append]
  cases tail with
  | nil => simp
  | cons byte tail => simp [Buffer.get]

theorem skip_stops_iff (hdata : buffer.data = front ++ tail) {stop : ℕ} :
    (skip buffer buffer.data.length front.length = stop ∧ ¬unended buffer buffer.data.length stop) ↔
    ∃ (s : CString) (rest : List UInt8), tail = s.bytes ++ rest ∧
    stop = front.length + s.text.length := by
  obtain ⟨data, behind⟩ := buffer
  obtain rfl : data = front ++ tail := hdata
  rw [← @Buffer.scan_stops_iff front tail behind, skip, unended]
  have hcount : (((front ++ tail).length : ℤ) - front.length).toNat =
      tail.length := by
    rw [length_append]
    omega
  rw [hcount, Nat.cast_inj]

theorem cstring_of_data (hdata : buffer.data = front ++ (name.bytes ++ rest)) :
    buffer.cstring front.length = name := by
  rw [Buffer.cstring, hdata, drop_left, ofBytes_append]

/-- A name that is not empty is entered. -/
theorem more_of_data (hdata : buffer.data = front ++ (name.bytes ++ rest)) :
    more buffer buffer.data.length front.length ↔ name.text ≠ [] := by
  rw [← not_iff_not, not_more_iff hdata, not_not, CString.bytes]
  constructor
  · rintro (hnil | ⟨rest', hzero⟩)
    · simp at hnil
    · by_contra hname
      obtain ⟨byte, text, htext⟩ := exists_cons_of_ne_nil hname
      rw [htext, cons_append, cons_append, List.cons.injEq] at hzero
      refine name.nul_not_mem ?_
      rw [htext, hzero.1]
      exact mem_cons_self
  · intro hname
    exact .inr ⟨rest, by rw [hname]; rfl⟩

theorem length_append_bytes (front : List UInt8) (name : CString) :
    (front ++ name.bytes).length = front.length + name.text.length + 1 := by
  rw [length_append, length_bytes, Nat.add_assoc]

section

variable (hdata : buffer.data = front ++ (name.bytes ++ (value.bytes ++ rest)))
include hdata

/-- Where the loops are after a name and a value. -/
theorem skips_of_data :
    skip buffer buffer.data.length front.length = front.length + name.text.length ∧
    ¬unended buffer buffer.data.length (front.length + name.text.length) ∧
    skip buffer buffer.data.length (front.length + name.text.length + 1) =
    (front ++ name.bytes).length + value.text.length ∧ ¬unended buffer buffer.data.length
    ((front ++ name.bytes).length + value.text.length) := by
  have hvalue : buffer.data = (front ++ name.bytes) ++ (value.bytes ++ rest) := by
    rw [hdata, append_assoc]
  obtain ⟨hname, hnameEnd⟩ := (skip_stops_iff hdata).mpr ⟨name, _, rfl, rfl⟩
  obtain ⟨hskip, hvalueEnd⟩ := (skip_stops_iff hvalue).mpr ⟨value, rest, rfl, rfl⟩
  rw [length_append_bytes] at hskip ⊢
  rw [length_append_bytes] at hvalueEnd
  exact ⟨hname, hnameEnd, hskip, hvalueEnd⟩

/-- One round of the first loop. -/
theorem count_parm (hname : name.text ≠ []) (fuel num : ℕ) :
    count buffer buffer.data.length (fuel + 1) front.length num =
    count buffer buffer.data.length fuel
    (front ++ (name.bytes ++ value.bytes)).length (num + 1) := by
  obtain ⟨hskip, hended, hskipValue, hendedValue⟩ := skips_of_data hdata
  rw [← append_assoc, length_append_bytes (front ++ name.bytes)]
  simp only [count, if_pos ((more_of_data hdata).mpr hname), hskip, hskipValue,
    if_neg hended, if_neg hendedValue]

/-- One round of the second loop. -/
theorem fill_parm (hname : name.text ≠ []) (fuel places : ℕ) :
    fill buffer buffer.data.length (fuel + 1) front.length (places + 1) =
    (fill buffer buffer.data.length fuel (front ++ (name.bytes ++ value.bytes)).length places).map
    ((name, value) :: ·) := by
  obtain ⟨hskip, hended, hskipValue, hendedValue⟩ := skips_of_data hdata
  rw [unended, not_or] at hended hendedValue
  have hvalue : buffer.data = (front ++ name.bytes) ++ (value.bytes ++ rest) := by
    rw [hdata, append_assoc]
  rw [← append_assoc, length_append_bytes (front ++ name.bytes)]
  simp only [fill, if_pos ((more_of_data hdata).mpr hname), hskip, hskipValue, hended.2,
    hendedValue.2, or_false, Nat.add_one_ne_zero, if_false, Nat.add_sub_cancel]
  rw [← length_append_bytes, cstring_of_data hdata, cstring_of_data hvalue]

end

variable {parms : List StartupMessageParm}

theorem encodeParms_cons (parm : StartupMessageParm) : encodeParms (parm :: parms) =
    parm.1.bytes ++ parm.2.bytes ++ encodeParms parms :=
  flatMap_cons

/-- The data, cut in front of the first value and behind it. -/
theorem data_cons {parm : StartupMessageParm}
    (hdata : buffer.data = front ++ (encodeParms (parm :: parms) ++ rest)) :
    buffer.data = front ++ (parm.1.bytes ++ (parm.2.bytes ++ (encodeParms parms ++ rest))) ∧
    buffer.data = (front ++ (parm.1.bytes ++ parm.2.bytes)) ++ (encodeParms parms ++ rest) := by
  simp [hdata, encodeParms_cons]

/-- Nothing that could be a name follows. -/
def Closed (rest : List UInt8) : Prop := rest = [] ∨ ∃ more, rest = 0 :: more

section

variable (hnamed : Named parms) (hrest : Closed rest)
  (hdata : buffer.data = front ++ (encodeParms parms ++ rest)) {fuel : ℕ}
  (hfuel : parms.length < fuel)
include hnamed hrest hdata hfuel

theorem count_parms (num : ℕ) : count buffer buffer.data.length fuel front.length num =
    .ok (num + parms.length, front.length + (encodeParms parms).length) := by
  induction parms generalizing front fuel num with
  | nil =>
    obtain ⟨fuel, rfl⟩ := Nat.exists_eq_add_of_lt hfuel
    simp only [count, if_neg ((not_more_iff hdata).mpr hrest)]
    rfl
  | cons parm parms ih =>
    obtain ⟨hname, hparms⟩ := forall_mem_cons.mp hnamed
    obtain ⟨fuel, rfl⟩ : ∃ n, fuel = n + 1 := ⟨fuel - 1, by omega⟩
    obtain ⟨hfirst, hothers⟩ := data_cons hdata
    rw [length_cons] at hfuel
    rw [count_parm hfirst hname, ih hparms hothers (by omega), encodeParms_cons, length_cons]
    simp only [length_append]
    congr 2 <;> omega

theorem fill_parms : fill buffer buffer.data.length fuel front.length parms.length =
    some parms := by
  induction parms generalizing front fuel with
  | nil =>
    obtain ⟨fuel, rfl⟩ := Nat.exists_eq_add_of_lt hfuel
    simp [fill, if_neg ((not_more_iff hdata).mpr hrest)]
  | cons parm parms ih =>
    obtain ⟨hname, hparms⟩ := forall_mem_cons.mp hnamed
    obtain ⟨fuel, rfl⟩ : ∃ n, fuel = n + 1 := ⟨fuel - 1, by omega⟩
    obtain ⟨hfirst, hothers⟩ := data_cons hdata
    rw [length_cons] at hfuel ⊢
    rw [fill_parm hfirst hname, ih hparms hothers (by omega), Option.map_some]

end

/-- What is counted are parameters. -/
theorem exists_parms_of_count (hdata : buffer.data = front ++ tail) {fuel num num' c : ℕ}
    (hfuel : tail.length < fuel) (h : count buffer buffer.data.length fuel front.length num =
    .ok (num', c)) : ∃ parms rest, tail = encodeParms parms ++ rest ∧ Named parms ∧
    Closed rest := by
  induction fuel generalizing front tail num with
  | zero => exact absurd hfuel (Nat.not_lt_zero _)
  | succ fuel ih =>
    by_cases hmore : more buffer buffer.data.length front.length
    · simp only [count, if_pos hmore, fail] at h
      split_ifs at h with hname hvalue
      obtain ⟨name, rest, rfl, hstop⟩ :=
        (skip_stops_iff hdata).mp ⟨rfl, hname⟩
      have hbehind : buffer.data = (front ++ name.bytes) ++ rest := by
        rw [hdata, append_assoc]
      rw [hstop, ← length_append_bytes] at hvalue h
      obtain ⟨value, rest, rfl, hstop⟩ :=
        (skip_stops_iff hbehind).mp ⟨rfl, hvalue⟩
      have hothers : buffer.data = (front ++ name.bytes ++ value.bytes) ++ rest := by
        simp [hdata, append_assoc]
      rw [hstop, ← length_append_bytes] at h
      obtain ⟨parms, closing, rfl, hnamed, hclosed⟩ :=
        ih hothers (by simp at hfuel ⊢; omega) h
      refine ⟨(name, value) :: parms, closing, ?_,
        forall_mem_cons.mpr ⟨(more_of_data hdata).mp hmore, hnamed⟩, hclosed⟩
      rw [encodeParms_cons, append_assoc, append_assoc]
    · exact ⟨[], tail, rfl, fun _ h => absurd h not_mem_nil, (not_more_iff hdata).mp hmore⟩

end Loops

section Message

variable {length version : UInt32} {stream : List UInt8} {heap : ℕ → UInt8}
  {parms : List StartupMessageParm}

theorem length_le_encodeParms (parms : List StartupMessageParm) :
    parms.length ≤ (encodeParms parms).length := by
  induction parms with
  | nil => exact le_rfl
  | cons parm parms ih =>
    rw [encodeParms_cons, length_append, length_append, length_bytes, length_cons]
    omega

variable {buffer : Buffer}

section

variable {fuel : ℕ} (hnamed : Named parms) (hdata : buffer.data = encode parms)
  (hfuel : buffer.data.length < fuel)
include hnamed hdata hfuel

/-- A list that is sent is counted. -/
theorem count_encode : count buffer buffer.data.length fuel 0 0 =
    .ok (parms.length, (encodeParms parms).length) := by
  have hlength := length_le_encodeParms parms
  have hsplit : buffer.data = [] ++ (encodeParms parms ++ [0]) := hdata
  rw [hdata, encode, length_append] at hfuel
  have hcount := count_parms hnamed (.inr ⟨[], rfl⟩) hsplit (show parms.length < fuel by omega) 0
  rw [length_nil, Nat.zero_add, Nat.zero_add] at hcount
  exact hcount

theorem readList_of_encode : readList buffer buffer.data.length fuel = some (.ok parms) := by
  have hsplit : buffer.data = [] ++ (encodeParms parms ++ [0]) := hdata
  have hlength := length_le_encodeParms parms
  have hend : buffer.data.length = (encodeParms parms).length + 1 := by
    rw [hdata, encode, length_append]
    rfl
  have hzero : buffer.get (encodeParms parms).length = 0 := by
    simp [Buffer.get, hdata, encode]
  have hended : ¬unended buffer buffer.data.length (encodeParms parms).length := by
    rw [unended, not_or, not_not]
    exact ⟨by omega, hzero⟩
  have hfill : fill buffer buffer.data.length fuel 0 parms.length =
      some parms := fill_parms hnamed (.inr ⟨[], rfl⟩) hsplit (by omega)
  rw [readList, count_encode hnamed hdata hfuel]
  simp only [if_neg hended, hfill, Option.map_some]
  rw [if_neg (by omega)]

end

/-- Memory that does not hold a list gives an error. -/
theorem readList_eq_error {fuel : ℕ} (hfuel : buffer.data.length < fuel)
    (hnone : ∀ parms, Named parms → buffer.data ≠ encode parms) :
    ∃ err, readList buffer buffer.data.length fuel = some (.error err) := by
  cases hcount : count buffer buffer.data.length fuel 0 0 with
  | error err => exact ⟨err, by rw [readList, hcount]⟩
  | ok result =>
    have hsplit : buffer.data = [] ++ buffer.data := rfl
    obtain ⟨parms, rest, hdata, hnamed, hclosed⟩ :=
      exists_parms_of_count hsplit hfuel hcount
    have hlength := length_le_encodeParms parms
    have hend : buffer.data.length = (encodeParms parms).length + rest.length := by
      rw [hdata, length_append]
    have hparms : buffer.data = [] ++ (encodeParms parms ++ rest) := hdata
    have hcounted := count_parms hnamed hclosed hparms (show parms.length < fuel by omega) 0
    rw [length_nil, hcount, Except.ok.injEq, Prod.mk.injEq, Nat.zero_add] at hcounted
    simp only [readList, hcount]
    split_ifs with hunended htrailing
    · exact ⟨_, rfl⟩
    · exact ⟨_, rfl⟩
    · -- one byte is left, the NUL that closes the list
      have hone : rest.length = 1 := by omega
      obtain ⟨byte, rfl⟩ := length_eq_one_iff.mp hone
      obtain hnil | ⟨more, hzero⟩ := hclosed
      · cases hnil
      · rw [(List.cons.inj hzero).1] at hdata
        exact absurd hdata (hnone parms hnamed)

theorem length_block : (block length stream heap).data.length = (messageEnd length).toNat := by
  rw [block, length_map, length_range]

/-- A length that is less than the header never gives a list. -/
theorem readList_of_neg {buffer : Buffer} {messageEnd : ℤ} (fuel : ℕ) (hneg : messageEnd < 0) :
    ∃ err, readList buffer messageEnd fuel = some (.error err) := by
  have hcount : count buffer messageEnd fuel 0 0 = .ok (0, 0) := by
    cases fuel with
    | zero => rfl
    | succ fuel =>
      rw [count, if_neg]
      rintro ⟨hlt, -⟩
      omega
  simp only [readList, hcount]
  split_ifs with hunended htrailing
  · exact ⟨_, rfl⟩
  · exact ⟨_, rfl⟩
  · omega

/-- The client sent these parameters, and they fill the length. -/
def IsSent (length version : UInt32) (stream : List UInt8)
    (parms : List StartupMessageParm) : Prop :=
  version = protocolVersion ∧ Named parms ∧ stream.take (length.toNat - 8) = encode parms ∧
    8 + (encode parms).length = length.toNat

/-- The parameters that were sent are returned, and nothing else; otherwise
there is an error. -/
def ReadsStartupMessage (length version : UInt32) (stream : List UInt8) (heap : ℕ → UInt8) : Prop :=
  (∀ parms, readStartupMessage length version stream heap = some (.ok parms) ↔
    IsSent length version stream parms) ∧
  ((∀ parms, ¬IsSent length version stream parms) →
    ∃ err, readStartupMessage length version stream heap = some (.error err))

/-- The stream is long enough, or what the memory had before does not make it a
list. -/
def Complete (length : UInt32) (stream : List UInt8) (heap : ℕ → UInt8) :
    Prop :=
  stream.length + 8 < length.toNat → ∀ parms, Named parms →
    (block length stream heap).data ≠ encode parms

theorem messageEnd_of_lt (hlt : length.toNat < 2 ^ 31) : messageEnd length = length.toNat - 8 := by
  rw [messageEnd, signed_of_lt (by omega)]

theorem messageEnd_of_ge (hge : 2 ^ 31 ≤ length.toNat) :
    messageEnd length = length.toNat - 2 ^ 32 - 8 := by
  rw [messageEnd, signed, if_neg (by omega)]
  norm_num

/-- Enough bytes overwrite the memory. -/
theorem data_block_of_le (hlt : length.toNat < 2 ^ 31)
    (hstream : length.toNat ≤ stream.length + 8) :
    (block length stream heap).data = stream.take (length.toNat - 8) := by
  have hend : (messageEnd length).toNat = length.toNat - 8 := by
    rw [messageEnd_of_lt hlt]
    omega
  apply ext_getElem
  · rw [length_block, hend, length_take]
    omega
  · intro i hi hi'
    rw [length_take] at hi'
    have hlt : i < stream.length := by omega
    simp [block, getElem?_eq_getElem hlt]

theorem IsSent.lt_length (hsent : IsSent length version stream parms) : 8 < length.toNat := by
  obtain ⟨-, -, -, hlength⟩ := hsent
  rw [encode, length_append, length_singleton] at hlength
  omega

theorem IsSent.length_le (hsent : IsSent length version stream parms) :
    length.toNat ≤ stream.length + 8 := by
  obtain ⟨-, -, htake, hlength⟩ := hsent
  rw [← htake, length_take] at hlength
  omega

/-- An error is right exactly if no list was sent. -/
theorem reads_iff_of_error {err : ErrorResponse}
    (herror : readStartupMessage length version stream heap = some (.error err)) :
    ReadsStartupMessage length version stream heap ↔
    ∀ parms, ¬IsSent length version stream parms := by
  rw [ReadsStartupMessage, herror]
  constructor
  · rintro ⟨hreads, -⟩ parms hsent
    cases (hreads parms).mpr hsent
  · intro hnone
    exact ⟨fun parms => iff_of_false (by simp) (hnone parms), fun _ => ⟨err, rfl⟩⟩

theorem not_reads_of_none (hnone : readStartupMessage length version stream heap = none) :
    ¬ReadsStartupMessage length version stream heap := by
  rintro ⟨hreads, herror⟩
  rw [hnone] at hreads herror
  have hsent : ∀ parms, ¬IsSent length version stream parms :=
    fun parms hsent => by cases (hreads parms).mpr hsent
  obtain ⟨err, ⟨⟩⟩ := herror hsent

/-- A length without place for a list. -/
theorem readStartupMessage_of_le (stream : List UInt8) (heap : ℕ → UInt8) (hle : length.toNat ≤ 8) :
    ∃ err, readStartupMessage length protocolVersion stream heap = some (.error err) := by
  rw [readStartupMessage, if_neg (not_not.mpr rfl)]
  split_ifs with hnone hmemory
  · exact ⟨_, rfl⟩
  · rw [messageEnd_of_lt (by omega)] at hmemory
    omega
  · apply readList_of_neg
    rw [messageEnd_of_lt (by omega)]
    have hne : length.toNat ≠ 8 := fun h => hnone (UInt32.toNat.inj h)
    omega

/-- A list that is in the range of lengths. -/
theorem reads_iff_complete (hlower : 8 < length.toNat) (hupper : length.toNat < 2 ^ 31) :
    ReadsStartupMessage length protocolVersion stream heap ↔ Complete length stream heap := by
  have hend := messageEnd_of_lt hupper
  have hdata : ((block length stream heap).data.length : ℤ) = messageEnd length := by
    rw [length_block]
    omega
  have hne : length ≠ 8 := by
    rintro rfl
    exact absurd hlower (by decide)
  have hread : readStartupMessage length protocolVersion stream heap =
      readList (block length stream heap) (block length stream heap).data.length
        ((block length stream heap).data.length + 1) := by
    rw [readStartupMessage, if_neg (not_not.mpr rfl), if_neg hne,
      if_neg (by omega), hdata, length_block]
  have hsent : ∀ {parms}, IsSent length protocolVersion stream parms →
      Named parms ∧ (block length stream heap).data = encode parms := by
    intro parms h
    exact ⟨h.2.1, (data_block_of_le hupper h.length_le).trans h.2.2.1⟩
  by_cases hlist : ∃ parms, Named parms ∧ (block length stream heap).data = encode parms
  · obtain ⟨parms, hnamed, hencode⟩ := hlist
    have hok := readList_of_encode hnamed hencode (Nat.lt_succ_self _)
    by_cases hstream : length.toNat ≤ stream.length + 8
    · refine iff_of_true ⟨fun parms' => ?_, fun hnone => ?_⟩
        fun hshort => absurd hstream (not_le.mpr hshort)
      · constructor
        · intro h
          rw [hread, hok] at h
          cases h
          refine ⟨rfl, hnamed, ?_, ?_⟩
          · rw [← data_block_of_le hupper hstream, hencode]
          · rw [← hencode]
            omega
        · intro h
          rw [hread]
          exact readList_of_encode (hsent h).1 (hsent h).2 (Nat.lt_succ_self _)
      · refine absurd ⟨rfl, hnamed, ?_, ?_⟩ (hnone parms)
        · rw [← data_block_of_le hupper hstream, hencode]
        · rw [← hencode]
          omega
    · refine iff_of_false ?_ fun hcomplete =>
        hcomplete (not_le.mp hstream) parms hnamed hencode
      rintro ⟨hreads, -⟩
      exact hstream ((hreads parms).mp (hread.trans hok)).length_le
  · have hnone : ∀ parms, Named parms → (block length stream heap).data ≠ encode parms :=
      fun parms hnamed hencode => hlist ⟨parms, hnamed, hencode⟩
    obtain ⟨err, herr⟩ := readList_eq_error (Nat.lt_succ_self _) hnone
    rw [reads_iff_of_error (hread.trans herr)]
    exact iff_of_true (fun parms h => hnone parms (hsent h).1 (hsent h).2) fun _ => hnone

end Message

end StartupMessage

open StartupMessage in
/-- The first message is read as it was sent exactly if its length is an `int`
that is not negative and the connection gives as many bytes, or the bytes that
are missing do not happen to be right.  Just below the end of the range of
lengths there is memory again, and every list is refused. -/
theorem readStartupMessage_reads_sent_iff (length version : UInt32) (stream : List UInt8)
    (heap : ℕ → UInt8) : ReadsStartupMessage length version stream heap ↔
    (version = protocolVersion → (length.toNat < 2 ^ 31 ∧ Complete length stream heap) ∨
    (2 ^ 32 - 12 ≤ length.toNat ∧ ∀ parms, ¬IsSent length version stream parms)) := by
  by_cases hversion : version = protocolVersion
  swap
  · refine iff_of_true ((reads_iff_of_error (if_pos hversion)).mpr ?_) fun h => absurd h hversion
    exact fun parms hsent => hversion hsent.1
  subst hversion
  rw [forall_prop_of_true rfl]
  rcases Nat.lt_or_ge length.toNat (2 ^ 31) with hlt | hge
  · rw [or_iff_left (by omega), and_iff_right hlt]
    rcases Nat.lt_or_ge 8 length.toNat with hlower | hsmall
    · exact reads_iff_complete hlower hlt
    · obtain ⟨err, herr⟩ := readStartupMessage_of_le stream heap hsmall
      refine iff_of_true ((reads_iff_of_error herr).mpr fun parms hsent => ?_)
        fun hshort => by omega
      exact absurd hsent.lt_length (not_lt.mpr hsmall)
  · rw [or_iff_right (by omega)]
    have hend := messageEnd_of_ge hge
    have hne : length ≠ 8 := by
      rintro rfl
      exact absurd hge (by decide)
    by_cases hmemory : 20 + messageEnd length < 0
    · refine iff_of_false (not_reads_of_none ?_) (by omega)
      rw [readStartupMessage, if_neg (not_not.mpr rfl), if_neg hne, if_pos hmemory]
    · have hlist := length.toNat_lt
      obtain ⟨err, herr⟩ := @readList_of_neg (block length stream heap)
        (messageEnd length) ((messageEnd length).toNat + 1) (by omega)
      rw [and_iff_right (by omega)]
      have hread : readStartupMessage length protocolVersion stream heap = some (.error err) := by
        rw [readStartupMessage, if_neg (not_not.mpr rfl), if_neg hne, if_neg hmemory, herr]
      exact reads_iff_of_error hread

/-- A client that closes the connection after the header, with a length that
leaves one byte: a byte that is zero by chance is taken for an empty list. -/
theorem closed_connection_gives_message :
    readStartupMessage 9 protocolVersion [] (fun _ => 0) = some (.ok []) ∧
      ∀ parms, ¬StartupMessage.IsSent 9 protocolVersion [] parms := by
  refine ⟨rfl, fun parms hsent => ?_⟩
  exact absurd hsent.length_le (by decide)

end Octo
