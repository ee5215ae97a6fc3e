/-
The messages of a client that are read by walking over their bytes: Query,
PasswordMessage, Parse, Execute, Describe and Close.  Each reader accepts
exactly the encodings of its message and decodes them.
-/
import Octo.MessageBytes

namespace Octo

open MessageBytes List CString Buffer

/-- `PSQL_ErrorSeverity`, as far as the readers use it. -/
inductive Severity
  | error | fatal | warning
deriving DecidableEq, Repr

/-- `PSQL_SQLSTATECode`, as far as the readers use it. -/
inductive SqlState
  | protocolViolation | syntaxError
deriving DecidableEq, Repr

structure ErrorResponse where
  severity : Severity
  code : SqlState
  message : String
deriving DecidableEq, Repr

/-- `%c` of a byte. -/
def charText (byte : UInt8) : String := String.singleton (Char.ofNat byte.toNat)

namespace RoctoError

def invalidType (name : String) (actual expected : UInt8) : String :=
  name ++ ": invalid type '" ++ charText actual ++ "': must be '" ++ charText expected ++ "'"

def invalidCharValue (name field : String) (actual : UInt8) (expected : String) : String :=
  name ++ ": invalid " ++ field ++ " value " ++ charText actual ++ ": must be " ++ expected

def invalidNumber (name field : String) : String :=
  name ++ ": invalid number of " ++ field

def missingData (name field : String) : String := name ++ ": missing " ++ field

def missingNull (name field : String) : String :=
  name ++ ": " ++ field ++ " missing null terminator"

def tooManyValues (name field : String) : String :=
  name ++ ": too many " ++ field

def trailingChars (name : String) : String :=
  name ++ ": message has trailing characters"

end RoctoError

/-- A message as `read_message` leaves it: the type, and as many bytes as the
length, which counts itself, says. -/
structure BaseMessage where
  type : UInt8
  data : List UInt8
  length_lt : data.length + 4 < 2 ^ 32

/-- The value of the length field. -/
def BaseMessage.length (message : BaseMessage) : ℕ := message.data.length + 4

/-- The memory behind a block that was allocated.  The next block begins there
with its size, a number of eight bytes that never fills all of them. -/
structure NextBlock where
  byte : ℕ → UInt8
  size : ∃ i < 32, byte i = 0

/-- The type in the copy that `memcpy` makes of a message and its type.  The number
of bytes is an `unsigned int`: of the longest message none is copied, and the
type is that of the cleared memory. -/
def BaseMessage.copiedType (message : BaseMessage) : UInt8 :=
  if (message.length + 1) % 2 ^ 32 = 0 then 0 else message.type

/-- A copy of a message in memory of its own, with cleared bytes behind it.  It is
read only if the type was copied. -/
def BaseMessage.copy (message : BaseMessage) (cleared : ℕ) (heap : NextBlock) : Buffer where
  data := message.data
  behind i := if i < cleared then 0 else heap.byte (i - cleared)

/-- `read_query` and `read_password_message`, for the name of the message and
of its field. -/
def readString (name field : String) (type : UInt8) (message : BaseMessage)
    (heap : NextBlock) : Except ErrorResponse CString :=
  let fail := fun text => Except.error ⟨.error, .syntaxError, text⟩
  let buffer := message.copy 0 heap
  let messageEnd := message.data.length
  if message.type ≠ type then
    fail (RoctoError.invalidType name message.type type)
  else
    let c := buffer.scan 0 messageEnd
    if c = messageEnd then
      if message.length = 4 then fail (RoctoError.missingData name field)
      else fail (RoctoError.missingNull name field)
    else if c + 1 < messageEnd then fail (RoctoError.trailingChars name)
    else .ok (buffer.cstring 0)

def psqlQuery : UInt8 := 81

def psqlPasswordMessage : UInt8 := 112

def readQuery : BaseMessage → NextBlock → Except ErrorResponse CString :=
  readString "Query" "query" psqlQuery

def readPasswordMessage : BaseMessage → NextBlock → Except ErrorResponse CString :=
  readString "PasswordMessage" "password" psqlPasswordMessage

structure Execute where
  source : CString
  rowsToReturn : UInt32
deriving DecidableEq

def psqlExecute : UInt8 := 69

def readExecute (message : BaseMessage) (heap : NextBlock) : Except ErrorResponse Execute :=
  let fail := fun text => Except.error ⟨.error, .protocolViolation, text⟩
  let buffer := message.copy 4 heap
  let lastByte := message.data.length
  if message.copiedType ≠ psqlExecute then
    fail (RoctoError.invalidType "Execute" message.copiedType psqlExecute)
  else
    let cur := buffer.scan 0 lastByte
    if cur = lastByte ∨ buffer.get cur ≠ 0 then
      fail (RoctoError.missingNull "Execute" "source")
    else
      let cur := cur + 1
      if cur + 4 > lastByte then
        fail (RoctoError.missingData "Execute" "number of rows to return")
      else if cur ≠ lastByte - 4 then fail (RoctoError.trailingChars "Execute")
      else .ok ⟨buffer.cstring 0, UInt32.ofNat (buffer.load 4 cur)⟩

/-- The number of parameter types is a `short`. -/
structure Parse where
  dest : CString
  query : CString
  parmDataTypes : List UInt32
  num_lt : parmDataTypes.length < 2 ^ 15

def psqlParse : UInt8 := 80

/-- The end of `read_parse`: the types, which have to fill the message. -/
def readParmDataTypes (buffer : Buffer) (lastByte cur : ℕ)
    (dest query : CString) : Except ErrorResponse Parse :=
  let fail := fun text => Except.error ⟨.error, .protocolViolation, text⟩
  let num := buffer.load 2 cur
  let cur := cur + 2
  -- a `short` with its highest bit set is negative
  if hnum : 2 ^ 15 ≤ num then
    fail (RoctoError.invalidNumber "Parse" "parameter data types")
  else if cur + 4 * num < lastByte then
    fail (RoctoError.tooManyValues "Parse" "parameter data types")
  else if cur + 4 * num > lastByte then
    fail (RoctoError.missingData "Parse" "parameter data types")
  else
    .ok ⟨dest, query, ((List.range num).map fun i => buffer.load 4 (cur + 4 * i)).map UInt32.ofNat,
      by simpa using hnum⟩

def readParse (message : BaseMessage) (heap : NextBlock) : Except ErrorResponse Parse :=
  let fail := fun text => Except.error ⟨.error, .protocolViolation, text⟩
  let buffer := message.copy 4 heap
  let lastByte := message.data.length
  if message.copiedType ≠ psqlParse then
    fail (RoctoError.invalidType "Parse" message.copiedType psqlParse)
  else
    let cur := buffer.scan 0 lastByte
    if cur = lastByte ∨ buffer.get cur ≠ 0 then
      fail (RoctoError.missingNull "Parse" "destination")
    else if cur + 1 = lastByte then
      fail (RoctoError.missingData "Parse" "destination or query")
    else
      let query := cur + 1
      let cur := buffer.scan query (lastByte - query)
      if buffer.get cur ≠ 0 ∨ cur = lastByte then
        fail (RoctoError.missingNull "Parse" "query")
      else
        let cur := cur + 1
        if cur = lastByte then
          fail (RoctoError.missingData "Parse" "number of parameter data types")
        else
          readParmDataTypes buffer lastByte cur (buffer.cstring 0) (buffer.cstring query)

/-- What Describe and Close are about. -/
inductive Item
  | statement | portal
deriving DecidableEq, Repr

def Item.byte : Item → UInt8
  | statement => 83
  | portal => 80

def Item.ofByte? (byte : UInt8) : Option Item :=
  if byte = 83 then some statement
  else if byte = 80 then some portal
  else none

structure ItemMessage where
  item : Item
  name : CString
deriving DecidableEq

def psqlDescribe : UInt8 := 68

def psqlClose : UInt8 := 67

/-- The length of the name; unsigned, so that an empty message has a huge
one. -/
def BaseMessage.nameLength (message : BaseMessage) : ℕ :=
  (message.length + 2 ^ 32 - 5) % 2 ^ 32

/-- `read_describe` and `read_close`, for the name of the message and of its
field, the type that was copied, the cleared bytes behind the copy, and how far
the loop may go. -/
def readItem (name field : String) (type copied : UInt8) (cleared count : ℕ)
    (message : BaseMessage) (heap : NextBlock) : Except ErrorResponse ItemMessage :=
  let fail := fun text => Except.error ⟨.warning, .protocolViolation, text⟩
  let buffer := message.copy cleared heap
  if copied ≠ type then
    fail (RoctoError.invalidType name copied type)
  else
    match Item.ofByte? (buffer.get 0) with
    | none => fail (RoctoError.invalidCharValue name "item" (buffer.get 0) "'S' or 'P'")
    | some item =>
      let lastByte := 1 + message.nameLength
      let cur := buffer.scan 1 count + 1
      if cur > lastByte then fail (RoctoError.missingNull name field)
      else if cur < lastByte then fail (RoctoError.trailingChars name)
      else .ok ⟨item, buffer.cstring 1⟩

/-- The loop of `read_describe` has no bound but the cleared bytes. -/
def readDescribe (message : BaseMessage) : NextBlock → Except ErrorResponse ItemMessage :=
  readItem "Describe" "name" psqlDescribe message.copiedType 5 (message.data.length + 5) message

/-- The copy of `read_close` has no cleared bytes, and its size is a `size_t`. -/
def readClose (message : BaseMessage) : NextBlock → Except ErrorResponse ItemMessage :=
  readItem "Close" "data" psqlClose message.type 0 message.nameLength message

def Execute.encode (execute : Execute) : List UInt8 :=
  execute.source.bytes ++ bigEndian 4 execute.rowsToReturn.toNat

def Parse.encode (parse : Parse) : List UInt8 :=
  parse.dest.bytes ++ (parse.query.bytes ++ (bigEndian 2 parse.parmDataTypes.length ++
    parse.parmDataTypes.flatMap fun type => bigEndian 4 type.toNat))

def ItemMessage.encode (message : ItemMessage) : List UInt8 :=
  message.item.byte :: message.name.bytes

section Copies

variable {message : BaseMessage} {heap : NextBlock} {cleared : ℕ} {front rest : List UInt8}

variable {s : CString}

theorem BaseMessage.copy_scan (hdata : message.data = front ++ (s.bytes ++ rest))
    {count : ℕ} (hcount : s.text.length < count) :
    (message.copy cleared heap).scan front.length count = front.length + s.text.length := by
  unfold copy
  rw [hdata]
  exact scan_cstring s hcount

theorem BaseMessage.copy_cstring (hdata : message.data = front ++ (s.bytes ++ rest)) :
    (message.copy cleared heap).cstring front.length = s := by
  unfold copy
  rw [hdata]
  exact cstring_append s

theorem BaseMessage.copy_load {field : List UInt8}
    (hdata : message.data = front ++ (field ++ rest)) :
    (message.copy cleared heap).load field.length front.length = number field := by
  unfold copy
  rw [hdata, ← Nat.add_zero front.length, load_append, load_zero]

/-- The byte that ends a string. -/
theorem BaseMessage.copy_get (hdata : message.data = front ++ (s.bytes ++ rest)) :
    (message.copy cleared heap).get (front.length + s.text.length) = 0 := by
  unfold copy
  rw [hdata]
  exact get_cstring_end s

/-- The loop over a string of the message, and what it finds. -/
theorem BaseMessage.copy_string {start count : ℕ} (hstart : front.length = start)
    (hdata : message.data = front ++ (s.bytes ++ rest)) (hcount : s.text.length < count) :
    (message.copy cleared heap).scan start count = start + s.text.length ∧
    (message.copy cleared heap).get (start + s.text.length) = 0 ∧
    (message.copy cleared heap).cstring start = s := by
  subst hstart
  exact ⟨message.copy_scan hdata hcount, message.copy_get hdata, message.copy_cstring hdata⟩

variable {tail : List UInt8}

/-- Without a zero byte the loop comes to the end of the message. -/
theorem BaseMessage.le_copy_scan {count : ℕ} (hdata : message.data = front ++ tail)
    (hmem : (0 : UInt8) ∉ tail) (hcount : tail.length ≤ count) : front.length + tail.length ≤
    (message.copy cleared heap).scan front.length count := by
  unfold copy
  rw [hdata, ← Nat.add_zero front.length, scan_append]
  exact Nat.add_le_add_left (le_scan_of_not_mem hmem hcount) _

/-- The rest of a message begins with a string, or the loop runs to its
end. -/
theorem BaseMessage.copy_scan_cases (hdata : message.data = front ++ tail) :
    (message.copy cleared heap).scan front.length tail.length = message.data.length ∨
    ∃ (s : CString) (rest : List UInt8), tail = s.bytes ++ rest := by
  by_cases hmem : (0 : UInt8) ∈ tail
  · exact .inr (exists_cstring hmem)
  · left
    have hlength : message.data.length = front.length + tail.length := by
      rw [hdata, length_append]
    rw [hlength]
    exact le_antisymm (scan_le _ _) (message.le_copy_scan hdata hmem le_rfl)

/-- Where the loop stops before the end of the message, a string ends. -/
theorem BaseMessage.copy_scan_eq_iff {stop : ℕ} (hdata : message.data = front ++ tail) :
    ((message.copy cleared heap).scan front.length tail.length = stop ∧
    ¬(stop = message.data.length ∨ (message.copy cleared heap).get stop ≠ 0)) ↔
    ∃ (s : CString) (rest : List UInt8), tail = s.bytes ++ rest ∧
    stop = front.length + s.text.length := by
  unfold copy
  rw [hdata]
  exact scan_stops_iff

end Copies

section Strings

variable {message : BaseMessage} {heap : NextBlock}

theorem BaseMessage.copiedType_eq_iff {type : UInt8} (htype : type ≠ 0) :
    message.copiedType = type ↔ message.type = type ∧ message.length + 1 ≠ 2 ^ 32 := by
  have hlength : message.length < 2 ^ 32 := message.length_lt
  rw [copiedType]
  split_ifs with hwrap
  · exact iff_of_false htype.symm fun h => h.2 (by omega)
  · exact (and_iff_left (by omega)).symm

theorem readString_eq_ok_iff {name field : String} {type : UInt8} {s : CString} :
    readString name field type message heap = .ok s ↔
    message.type = type ∧ message.data = s.bytes := by
  constructor
  · intro h
    simp only [readString] at h
    split_ifs at h with htype hend hlength htrailing
    refine ⟨not_not.mp htype, ?_⟩
    have hnil : message.data = [] ++ message.data := rfl
    rcases BaseMessage.copy_scan_cases hnil with hnone | ⟨t, rest, hdata⟩
    · exact absurd hnone hend
    · have hsplit : message.data = [] ++ (t.bytes ++ rest) := hdata
      have hlength : message.data.length = t.text.length + 1 + rest.length := by
        rw [hdata, length_append, length_bytes]
      obtain ⟨hscan, -, hs⟩ := @BaseMessage.copy_string message heap 0 _ _ t 0 _ rfl hsplit
        (by omega : t.text.length < message.data.length)
      have hrest : rest = [] := length_eq_zero_iff.mp (by omega)
      rw [hdata, hrest, append_nil, ← Except.ok.inj h, hs]
  · rintro ⟨htype, hdata⟩
    have hsplit : message.data = [] ++ (s.bytes ++ []) := by
      rw [hdata, nil_append, append_nil]
    have hlength : message.data.length = s.text.length + 1 := by
      rw [hdata, length_bytes]
    obtain ⟨hscan, -, hs⟩ := @BaseMessage.copy_string message heap 0 _ _ s 0 _ rfl hsplit
      (by omega : s.text.length < message.data.length)
    simp only [readString, hs]
    rw [if_neg (not_not.mpr htype), if_neg (by omega), if_neg (by omega)]

theorem readExecute_eq_ok_iff {execute : Execute} : readExecute message heap = .ok execute ↔
    message.copiedType = psqlExecute ∧ message.data = execute.encode := by
  constructor
  · intro h
    simp only [readExecute] at h
    split_ifs at h with htype hnul hmissing htrailing
    refine ⟨not_not.mp htype, ?_⟩
    rw [not_or] at hnul
    have hnil : message.data = [] ++ message.data := rfl
    rcases BaseMessage.copy_scan_cases hnil with hnone | ⟨t, rest, hdata⟩
    · exact absurd hnone hnul.1
    · have hsplit : message.data = [] ++ (t.bytes ++ rest) := hdata
      have hlength : message.data.length = t.text.length + 1 + rest.length := by
        rw [hdata, length_append, length_bytes]
      obtain ⟨hscan, -, hcstring⟩ := @BaseMessage.copy_string message heap 4 _ _ t 0 _ rfl hsplit
        (by omega : t.text.length < message.data.length)
      have hrest : rest.length = 4 := by omega
      have hload : (message.copy 4 heap).load 4 (t.text.length + 1) = number rest := by
        have hfield : message.data = t.bytes ++ (rest ++ []) := by
          rw [hdata, append_nil]
        rw [← hrest, ← length_bytes]
        exact BaseMessage.copy_load hfield
      have hnumber := number_lt rest
      cases h
      rw [hscan, Nat.zero_add, hload, hcstring, Execute.encode]
      have hmod : (UInt32.ofNat (number rest)).toNat = number rest := by
        rw [hrest] at hnumber
        simpa using Nat.mod_eq_of_lt hnumber
      rw [hmod, bigEndian_number hrest, hdata]
  · rintro ⟨htype, hdata⟩
    have hsplit : message.data = [] ++ (execute.source.bytes ++
        bigEndian 4 execute.rowsToReturn.toNat) := hdata
    have hlength : message.data.length = execute.source.text.length + 5 := by
      simp [hdata, Execute.encode]
    obtain ⟨hscan, hget, hs⟩ := @BaseMessage.copy_string message heap 4 _ _ execute.source 0 _ rfl
      hsplit (by omega : execute.source.text.length < message.data.length)
    have hload : (message.copy 4 heap).load 4
        (execute.source.text.length + 1) = execute.rowsToReturn.toNat := by
      have hfield : message.data = execute.source.bytes ++
          (bigEndian 4 execute.rowsToReturn.toNat ++ []) := by
        rw [hdata, append_nil, Execute.encode]
      have hrows := @BaseMessage.copy_load message heap 4 _ _ _ hfield
      rw [length_bigEndian, length_bytes, number_bigEndian execute.rowsToReturn.toNat_lt] at hrows
      exact hrows
    have hnul : ¬(0 + execute.source.text.length = message.data.length ∨ (0 : UInt8) ≠ 0) := by
      rintro (hend | hne)
      · omega
      · exact hne rfl
    simp only [readExecute, hscan, hget]
    rw [if_neg (not_not.mpr htype), if_neg hnul, if_neg (by omega),
      if_neg (by omega), Nat.zero_add, hload, hs, UInt32.ofNat_toNat]

end Strings

section Types

variable {message : BaseMessage} {heap : NextBlock}

/-- A number of four bytes fits its type. -/
theorem toNat_ofNat_number {field : List UInt8} (hfield : field.length = 4) :
    (UInt32.ofNat (number field)).toNat = number field := by
  have hlt := number_lt field
  rw [hfield] at hlt
  simpa using Nat.mod_eq_of_lt hlt

variable {fields : List (List UInt8)}

theorem flatMap_bigEndian_number
    (hwidth : ∀ field ∈ fields, field.length = 4) : ((fields.map number).map UInt32.ofNat).flatMap
    (fun type => bigEndian 4 type.toNat) = fields.flatten := by
  induction fields with
  | nil => rfl
  | cons field fields ih =>
    obtain ⟨hfield, hfields⟩ := forall_mem_cons.mp hwidth
    rw [map_cons, map_cons, flatMap_cons, ih hfields,
      toNat_ofNat_number hfield, bigEndian_number hfield, flatten_cons]

theorem map_number_bigEndian (types : List UInt32) :
    ((types.map fun type => bigEndian 4 type.toNat).map number).map UInt32.ofNat = types := by
  induction types with
  | nil => rfl
  | cons type types ih =>
    rw [map_cons, map_cons, map_cons, ih, number_bigEndian type.toNat_lt, UInt32.ofNat_toNat]

variable {tail : List UInt8}

/-- Both strings of Parse are there: what is left to read are its types. -/
theorem readParse_of_strings {dest query : CString} (htype : message.copiedType = psqlParse)
    (hdata : message.data = dest.bytes ++ (query.bytes ++ tail)) (htail : tail ≠ []) :
    readParse message heap = readParmDataTypes (message.copy 4 heap) message.data.length
    (dest.bytes ++ query.bytes).length dest query := by
  have hsplit : message.data = [] ++ (dest.bytes ++ (query.bytes ++ tail)) :=
    hdata
  have hpos : 0 < tail.length := length_pos_iff.mpr htail
  have hlength : message.data.length =
      dest.text.length + 1 + (query.text.length + 1 + tail.length) := by
    simp [hdata]
  obtain ⟨hscanDest, hgetDest, hdest⟩ := @BaseMessage.copy_string message heap 4 _ _ dest 0 _ rfl
    hsplit (by omega : dest.text.length < message.data.length)
  obtain ⟨hscanQuery, hgetQuery, hquery⟩ := @BaseMessage.copy_string message heap 4 _ _ query _ _
    dest.length_bytes hdata
    (by omega : query.text.length < message.data.length - (dest.text.length + 1))
  rw [Nat.zero_add] at hscanDest hgetDest
  have hfound : ¬dest.text.length = message.data.length := by omega
  have hmore : ¬dest.text.length + 1 = message.data.length := by omega
  have hfoundQuery : ¬dest.text.length + 1 + query.text.length =
      message.data.length := by omega
  have hmoreQuery : ¬dest.text.length + 1 + query.text.length + 1 =
      message.data.length := by omega
  have hcur : (dest.bytes ++ query.bytes).length =
      dest.text.length + 1 + query.text.length + 1 := by
    rw [length_append, length_bytes, length_bytes]
    omega
  simp only [readParse, htype, hscanDest, hgetDest, hscanQuery, hgetQuery, hdest, hquery, hfound,
    hmore, hfoundQuery, hmoreQuery, hcur, ne_eq, not_true_eq_false, or_self, if_false]

section Fields

variable {front count : List UInt8} {dest query : CString}

/-- As many types as their number says are read. -/
theorem readParmDataTypes_of_fields (hdata : message.data = front ++ (count ++ fields.flatten))
    (hcount : count.length = 2) (hnum : number count = fields.length) (hlt : fields.length < 2 ^ 15)
    (hwidth : ∀ field ∈ fields, field.length = 4) :
    readParmDataTypes (message.copy 4 heap) message.data.length front.length dest query =
    .ok ⟨dest, query, (fields.map number).map UInt32.ofNat, by simpa using hlt⟩ := by
  have hload : (message.copy 4 heap).load 2 front.length = fields.length := by
    rw [← hnum, ← hcount]
    exact BaseMessage.copy_load hdata
  have hloads : (List.range fields.length).map (fun i =>
      (message.copy 4 heap).load 4 (front.length + 2 + 4 * i)) = fields.map number := by
    have htypes : message.data = (front ++ count) ++ (fields.flatten ++ []) := by
      rw [hdata, append_nil, append_assoc]
    rw [← hcount, ← length_append]
    unfold BaseMessage.copy
    rw [htypes]
    exact map_load_fields hwidth
  have hlength : message.data.length = front.length + 2 + 4 * fields.length := by
    rw [hdata, length_append, length_append, hcount, length_flatten_fields hwidth, Nat.add_assoc]
  simp only [readParmDataTypes, hload, hloads, hlength, lt_irrefl, if_false,
    dif_neg (Nat.not_le.mpr hlt)]

/-- The types of Parse fill the rest of the message. -/
theorem readParmDataTypes_eq_ok_iff {parse : Parse} (hdata : message.data = front ++ tail) :
    readParmDataTypes (message.copy 4 heap) message.data.length front.length
    dest query = .ok parse ↔ parse.dest = dest ∧ parse.query = query ∧
    tail = bigEndian 2 parse.parmDataTypes.length ++
    parse.parmDataTypes.flatMap fun type => bigEndian 4 type.toNat := by
  constructor
  · intro h
    have hread := h
    simp only [readParmDataTypes] at hread
    split_ifs at hread with hnum hmany hmissing
    have hlength : message.data.length = front.length + tail.length := by
      rw [hdata, length_append]
    obtain ⟨count, rest, hsplit, hcount⟩ : ∃ count rest, tail = count ++ rest ∧ count.length = 2 :=
      ⟨tail.take 2, tail.drop 2, (take_append_drop 2 tail).symm, by rw [length_take]; omega⟩
    have hload : (message.copy 4 heap).load 2 front.length = number count := by
      rw [← hcount]
      exact BaseMessage.copy_load (hsplit ▸ hdata)
    have hrest : rest.length = 4 * number count := by
      rw [hlength, hsplit, length_append] at hmany hmissing
      omega
    obtain ⟨fields, rfl, hfields, hwidth⟩ := exists_fields hrest
    rw [readParmDataTypes_of_fields (hsplit ▸ hdata) hcount hfields.symm (by omega) hwidth] at h
    cases h
    refine ⟨rfl, rfl, ?_⟩
    rw [flatMap_bigEndian_number hwidth, length_map, length_map,
      hfields, bigEndian_number hcount, hsplit]
  · rintro ⟨rfl, rfl, htail⟩
    have hlt : parse.parmDataTypes.length < 256 ^ 2 :=
      lt_trans parse.num_lt (by decide)
    rw [htail, flatMap_def] at hdata
    rw [readParmDataTypes_of_fields hdata (length_bigEndian 2 _)
      (by rw [number_bigEndian hlt, length_map]) (by rw [length_map]; exact parse.num_lt) (by simp)]
    simp only [map_number_bigEndian]

end Fields

variable {parse : Parse}

/-- What is accepted has both strings and goes on behind them. -/
theorem strings_of_readParse (h : readParse message heap = .ok parse) :
    message.copiedType = psqlParse ∧ ∃ (dest query : CString) (tail : List UInt8),
    message.data = dest.bytes ++ (query.bytes ++ tail) ∧ tail ≠ [] := by
  simp only [readParse] at h
  split_ifs at h with htype hdest hmissing hquery hnum
  rw [not_or] at hdest hquery
  refine ⟨not_not.mp htype, ?_⟩
  have hnil : message.data = [] ++ message.data := rfl
  rcases BaseMessage.copy_scan_cases hnil with hnone | ⟨dest, rest, hdata⟩
  · exact absurd hnone hdest.1
  have hsplit : message.data = [] ++ (dest.bytes ++ rest) := hdata
  have hlength : message.data.length = dest.bytes.length + rest.length := by
    rw [hdata, length_append]
  have hscan : (message.copy 4 heap).scan 0 message.data.length + 1 =
      dest.bytes.length := by
    rw [length_bytes] at hlength ⊢
    rw [← Nat.zero_add dest.text.length]
    exact congrArg (· + 1) (BaseMessage.copy_scan hsplit (by omega))
  rw [hscan, show message.data.length - dest.bytes.length = rest.length by
    omega] at hquery hnum
  rcases BaseMessage.copy_scan_cases hdata with hnone | ⟨query, tail, rfl⟩
  · exact absurd hnone hquery.2
  refine ⟨dest, query, tail, hdata, ?_⟩
  rintro rfl
  have hend := @BaseMessage.copy_scan message heap 4 _ _ _ hdata
    (query.bytes ++ []).length (by simp)
  rw [hend] at hnum
  simp only [hdata, length_append, length_bytes, length_nil] at hnum
  omega

theorem readParse_eq_ok_iff : readParse message heap = .ok parse ↔
    message.copiedType = psqlParse ∧ message.data = parse.encode := by
  constructor
  · intro h
    obtain ⟨htype, dest, query, tail, hdata, htail⟩ := strings_of_readParse h
    have hstrings : message.data = (dest.bytes ++ query.bytes) ++ tail := by
      rw [hdata, append_assoc]
    rw [readParse_of_strings htype hdata htail, readParmDataTypes_eq_ok_iff hstrings] at h
    obtain ⟨rfl, rfl, htypes⟩ := h
    exact ⟨htype, by rw [hdata, htypes, Parse.encode]⟩
  · rintro ⟨htype, hdata⟩
    have hstrings : message.data = (parse.dest.bytes ++ parse.query.bytes) ++
        (bigEndian 2 parse.parmDataTypes.length ++
          parse.parmDataTypes.flatMap fun type => bigEndian 4 type.toNat) := by
      rw [hdata, Parse.encode, append_assoc]
    rw [readParse_of_strings htype hdata (by simp [bigEndian]),
      readParmDataTypes_eq_ok_iff hstrings]
    exact ⟨rfl, rfl, rfl⟩

end Types

section Items

variable {message : BaseMessage} {heap : NextBlock}

variable {byte : UInt8}

theorem Item.ofByte?_eq_some_iff {item : Item} :
    Item.ofByte? byte = some item ↔ byte = item.byte := by
  cases item <;> simp only [Item.ofByte?, Item.byte] <;> split_ifs <;>
    simp_all

variable {itemMessage : ItemMessage}

/-- A message with an item byte, whose loop goes at least to the end. -/
theorem readItem_eq_ok_iff {name field : String} {type copied : UInt8} {cleared count : ℕ}
    {tail : List UInt8} (hdata : message.data = [byte] ++ tail) (hcount : tail.length ≤ count) :
    readItem name field type copied cleared count message heap = .ok itemMessage ↔
    copied = type ∧ message.data = itemMessage.encode := by
  have hget : (message.copy cleared heap).get 0 = byte := by
    simp [BaseMessage.copy, Buffer.get, hdata]
  have hlt := message.length_lt
  have hlength : message.data.length = 1 + tail.length := by
    rw [hdata, length_append, length_singleton]
  have hname : message.nameLength = tail.length := by
    rw [BaseMessage.nameLength, BaseMessage.length]
    omega
  have hscan : ∀ (s : CString) rest, tail = s.bytes ++ rest →
      (message.copy cleared heap).scan 1 count = 1 + s.text.length := by
    rintro s rest rfl
    refine BaseMessage.copy_scan hdata ?_
    rw [length_append, length_bytes] at hcount
    omega
  constructor
  · intro h
    simp only [readItem, hget, hname] at h
    cases hitem : Item.ofByte? byte with
    | none =>
      simp only [hitem] at h
      split_ifs at h
    | some item =>
      simp only [hitem] at h
      split_ifs at h with htype hmissing htrailing
      refine ⟨not_not.mp htype, ?_⟩
      obtain ⟨s, rest, rfl⟩ : ∃ (s : CString) (rest : List UInt8), tail = s.bytes ++ rest := by
        apply exists_cstring
        by_contra hmem
        have hle : 1 + tail.length ≤ (message.copy cleared heap).scan 1 count :=
          message.le_copy_scan hdata hmem hcount
        omega
      have hend := hscan s rest rfl
      have hrest : rest = [] := by
        rw [length_append, length_bytes] at hmissing htrailing
        exact length_eq_zero_iff.mp (by omega)
      have hs : (message.copy cleared heap).cstring 1 = s :=
        BaseMessage.copy_cstring hdata
      cases h
      rw [hdata, ItemMessage.encode, hs, hrest, append_nil, Item.ofByte?_eq_some_iff.mp hitem]
      rfl
  · rintro ⟨htype, hencode⟩
    obtain ⟨rfl, rfl⟩ : byte = itemMessage.item.byte ∧ tail = itemMessage.name.bytes := by
      simpa [ItemMessage.encode] using hdata.symm.trans hencode
    have hitem := Item.ofByte?_eq_some_iff.mpr (rfl : itemMessage.item.byte = itemMessage.item.byte)
    have hend := hscan itemMessage.name [] (by simp)
    have hs : (message.copy cleared heap).cstring 1 = itemMessage.name := by
      have hsplit : message.data = [itemMessage.item.byte] ++ (itemMessage.name.bytes ++ []) := by
        rw [hdata, append_nil]
      exact BaseMessage.copy_cstring hsplit
    rw [length_bytes] at hname
    simp only [readItem, hget, hname, hitem, hs, hend]
    rw [if_neg (not_not.mpr htype), if_neg (by omega), if_neg (by omega)]

theorem ItemMessage.encode_ne_nil (itemMessage : ItemMessage) : itemMessage.encode ≠ [] :=
  cons_ne_nil _ _

theorem readDescribe_eq_ok_iff : readDescribe message heap = .ok itemMessage ↔
      message.copiedType = psqlDescribe ∧ message.data = itemMessage.encode := by
  cases hdata : message.data with
  | cons byte tail =>
    rw [← hdata]
    exact readItem_eq_ok_iff hdata (by rw [hdata, length_cons]; omega)
  | nil =>
    -- the item is a cleared byte
    have hget : (message.copy 5 heap).get 0 = 0 := by
      simp [BaseMessage.copy, Buffer.get, hdata]
    have hitem : Item.ofByte? 0 = none := rfl
    refine iff_of_false (fun h => ?_) fun h =>
      itemMessage.encode_ne_nil h.2.symm
    simp only [readDescribe, readItem, hget, hitem] at h
    split_ifs at h

theorem readClose_eq_ok_iff : readClose message heap = .ok itemMessage ↔
      message.type = psqlClose ∧ message.data = itemMessage.encode := by
  have hlt := message.length_lt
  cases hdata : message.data with
  | cons byte tail =>
    rw [← hdata]
    refine readItem_eq_ok_iff hdata ?_
    rw [hdata, length_cons] at hlt
    rw [BaseMessage.nameLength, BaseMessage.length, hdata, length_cons]
    omega
  | nil =>
    -- the item is a byte of the next block, whose size ends the loop early
    have hget : ∀ i, (message.copy 0 heap).get i = heap.byte i := by
      intro i
      simp [BaseMessage.copy, Buffer.get, hdata]
    have hname : message.nameLength = 2 ^ 32 - 1 := by
      rw [BaseMessage.nameLength, BaseMessage.length, hdata]
      rfl
    refine iff_of_false (fun h => ?_) fun h =>
      itemMessage.encode_ne_nil h.2.symm
    simp only [readClose, readItem, hget, hname] at h
    cases hitem : Item.ofByte? (heap.byte 0) with
    | none =>
      simp only [hitem] at h
      split_ifs at h
    | some item =>
      simp only [hitem] at h
      split_ifs at h with htype hmissing htrailing
      obtain ⟨i, hi, hzero⟩ := heap.size
      have hpos : i ≠ 0 := by
        rintro rfl
        rw [hzero] at hitem
        simp [Item.ofByte?] at hitem
      have hscan : (message.copy 0 heap).scan 1 (2 ^ 32 - 1) ≤ i :=
        scan_le_of_get ((hget i).trans hzero) (by omega)
      omega

end Items

/-- Each reader accepts exactly the encodings of its message, and what it
returns is the message that is encoded; but Parse, Execute and Describe are never
accepted with the largest length. -/
theorem readers_accept_exactly_encodings (message : BaseMessage) (heap : NextBlock) :
    (∀ query, readQuery message heap = .ok query ↔
      message.type = psqlQuery ∧ message.data = query.bytes) ∧
    (∀ password, readPasswordMessage message heap = .ok password ↔
      message.type = psqlPasswordMessage ∧ message.data = password.bytes) ∧
    (∀ close, readClose message heap = .ok close ↔
      message.type = psqlClose ∧ message.data = close.encode) ∧
    (∀ parse, readParse message heap = .ok parse ↔
      (message.type = psqlParse ∧ message.data = parse.encode) ∧ message.length + 1 ≠ 2 ^ 32) ∧
    (∀ execute, readExecute message heap = .ok execute ↔
      (message.type = psqlExecute ∧ message.data = execute.encode) ∧
        message.length + 1 ≠ 2 ^ 32) ∧
    (∀ describe, readDescribe message heap = .ok describe ↔
      (message.type = psqlDescribe ∧ message.data = describe.encode) ∧
        message.length + 1 ≠ 2 ^ 32) := by
  refine ⟨fun _ => readString_eq_ok_iff, fun _ => readString_eq_ok_iff,
    fun _ => readClose_eq_ok_iff, fun parse => ?_, fun execute => ?_, fun describe => ?_⟩
  · rw [readParse_eq_ok_iff, BaseMessage.copiedType_eq_iff (by decide), and_right_comm]
  · rw [readExecute_eq_ok_iff, BaseMessage.copiedType_eq_iff (by decide), and_right_comm]
  · rw [readDescribe_eq_ok_iff, BaseMessage.copiedType_eq_iff (by decide), and_right_comm]

/-- The number of bytes to copy is zero for the Execute message of the largest
length, so it is refused for its type. -/
theorem longest_execute_is_refused : ∃ (message : BaseMessage) (execute : Execute),
    message.type = psqlExecute ∧ message.data = execute.encode ∧ message.length = 2 ^ 32 - 1 ∧
    ∀ heap, readExecute message heap = .error ⟨.error, .protocolViolation,
      RoctoError.invalidType "Execute" 0 psqlExecute⟩ := by
  obtain ⟨count, hcount⟩ : ∃ count, count + 10 = 2 ^ 32 := ⟨2 ^ 32 - 10, rfl⟩
  obtain ⟨execute, hlength⟩ : ∃ execute : Execute, execute.encode.length + 5 = 2 ^ 32 := by
    refine ⟨⟨⟨List.replicate count 97, fun hmem => ?_⟩, 0⟩, ?_⟩
    · exact absurd (eq_of_mem_replicate hmem) (by decide)
    · rw [Execute.encode, length_append, length_bytes, length_replicate, length_bigEndian, ← hcount]
  refine ⟨⟨psqlExecute, execute.encode, by omega⟩, execute, rfl, rfl, ?_, fun heap => ?_⟩
  · change execute.encode.length + 4 = 2 ^ 32 - 1
    omega
  · have htype : BaseMessage.copiedType ⟨psqlExecute, execute.encode, by omega⟩ = 0 := by
      rw [BaseMessage.copiedType, BaseMessage.length, if_pos (by rw [hlength, Nat.mod_self])]
    rw [readExecute, htype, if_pos (by decide)]

end Octo
