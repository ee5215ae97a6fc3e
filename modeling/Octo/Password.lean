/-
The password of a client.  The name of the user comes from the startup message,
the stored hash from the table of users, and the answer has to be the digest of
that hash and the salt.  The stored value is cut behind its first three bytes
whatever these are.
-/
import Mathlib.Data.Vector.Defs
import Octo.RowFields
import Octo.StartupMessage

namespace Octo

open MessageBytes Option CString
open List hiding Vector

namespace RoctoError

def passwordType (name type : String) : String :=
  name ++ ": expected " ++ type ++ " encrypted password"

def dbLookup (name what : String) : String :=
  name ++ ": failed to retrieve " ++ what ++ " from database"

def columnValue (name column : String) : String :=
  name ++ ": failed to extract column value " ++ column ++ " from row"

def badPassword (name : String) : String :=
  name ++ ": password doesn't match stored value"

end RoctoError

namespace Password

/-- `strncpy`: copied up to a NUL, and filled with NULs. -/
def strncpy (bytes : List UInt8) (count : ℕ) : List UInt8 :=
  let text := (bytes.take count).takeWhile (· ≠ 0)
  text ++ List.replicate (count - text.length) 0

/-- `strncmp(s, t, count) == 0`. -/
def strncmpEq (s t : CString) (count : ℕ) : Prop :=
  s.bytes.take count = t.bytes.take count

instance (s t : CString) (count : ℕ) : Decidable (strncmpEq s t count) :=
  inferInstanceAs (Decidable (_ = _))

/-- The rest of a row from a column on; nothing if the row has fewer. -/
def columnStart : ℕ → List UInt8 → List UInt8
  | 0, row => row
  | _ + 1, [] => []
  | column + 1, byte :: row =>
    if byte = columnDelimiter then columnStart column row
    else columnStart (column + 1) row

/-- The number of bytes before the next delimiter.  The end of the row does not
stop the loop; the end of the memory that may be read stops the process. -/
def valueLength : List UInt8 → Option ℕ
  | [] => none
  | byte :: memory =>
    if byte = columnDelimiter then some 0
    else (valueLength memory).map (· + 1)

/-- `get_user_column_value`: the value in its buffer, empty if 0 is returned. -/
def getUserColumnValue (bufLen : ℕ) (row behind : List UInt8) (column : ℕ) : Option (List UInt8) :=
  let start := columnStart column row ++ behind
  (valueLength start).map fun valueLen =>
    if valueLen > bufLen then [] else strncpy start valueLen

/-- `UserColumn_ROLPASSWORD`. -/
def rolPassword : ℕ := 10

def byteToHex (c : UInt8) : List UInt8 :=
  let digit := fun nibble : UInt8 =>
    if nibble < 10 then nibble + 48 else nibble + 87
  [digit (c >>> 4), digit ((c <<< 4) >>> 4)]

def md5ToHex (digest : Vector UInt8 16) : List UInt8 :=
  digest.toList.flatMap byteToHex

/-- The text `md5`. -/
def md5Text : CString := ⟨[109, 100, 53], by decide⟩

/-- The text `user`. -/
def userText : CString := ⟨[117, 115, 101, 114], by decide⟩

/-- The name that is looked up: the first parameter for the user is copied over
what the stack has. -/
def username (maxStrConst : ℕ) (parms : List StartupMessageParm) (stack : List UInt8) : CString :=
  CString.ofBytes (match parms.find? fun parm => parm.1 = userText with
    | some parm =>
      strncpy parm.2.bytes maxStrConst ++ stack.drop maxStrConst
    | none => stack)

def fail (text : String) : Option (Except ErrorResponse Unit) :=
  some (.error ⟨.error, .syntaxError, text⟩)

/-- The end of `handle_password_message`, with the stored value. -/
def checkPassword (md5 : List UInt8 → Vector UInt8 16) (password : CString)
    (salt : Vector UInt8 4) (buffer : List UInt8) : Option (Except ErrorResponse Unit) :=
  if buffer.length = 0 then
    fail (RoctoError.columnValue "handle_password_message" "rolpassword (hashed password)")
  -- the length of the first `memcpy` is unsigned
  else if buffer.length < 3 then none
  else
    let hashBuf := md5 (buffer.drop 3 ++ salt.toList)
    let md5Hex := CString.ofBytes (md5ToHex hashBuf ++ [0])
    let sent := CString.ofBytes (password.bytes.drop 3)
    if ¬strncmpEq md5Hex sent 33 then
      fail (RoctoError.badPassword "handle_password_message")
    else some (.ok ())

end Password

open Password in
/-- Success or an error; none if the process is stopped. -/
def handlePasswordMessage (maxStrConst : ℕ) (md5 : List UInt8 → Vector UInt8 16)
    (users : List UInt8 → Option (List UInt8)) (password : CString)
    (parms : List StartupMessageParm) (salt : Vector UInt8 4)
    (stack behind : List UInt8) : Option (Except ErrorResponse Unit) :=
  if ¬strncmpEq password md5Text 3 then
    fail (RoctoError.passwordType "handle_password_message" "md5")
  else
    match users (username maxStrConst parms stack).text with
    | none => fail (RoctoError.dbLookup "handle_password_message" "user info")
    | some row =>
      -- a row that does not fit the buffer is an error of the database
      if row.length > maxStrConst then none
      else
        (getUserColumnValue maxStrConst row behind rolPassword).bind
          (checkPassword md5 password salt)

namespace Password

/-- What a client has to answer for a hash. -/
def passwordDigest (md5 : List UInt8 → Vector UInt8 16) (salt : Vector UInt8 4)
    (hash : List UInt8) : List UInt8 :=
  md5Text.text ++ md5ToHex (md5 (hash ++ salt.toList))

/-- The hash that is compared with; none if there is no comparison. -/
def hashedPassword (maxStrConst : ℕ) (users : List UInt8 → Option (List UInt8))
    (parms : List StartupMessageParm) (stack behind : List UInt8) : Option (List UInt8) :=
  (users (username maxStrConst parms stack).text).bind fun row =>
    if row.length > maxStrConst then none
    else
      (getUserColumnValue maxStrConst row behind rolPassword).bind fun buffer =>
        if buffer.length < 3 then none else some (buffer.drop 3)

section Strings

theorem toNat_shiftRight_four_lt (c : UInt8) : (c >>> 4).toNat < 16 := by
  have hlt := c.toNat_lt
  have hfour : (4 : UInt8).toNat % 8 = 4 := by decide
  rw [UInt8.toNat_shiftRight, hfour, Nat.shiftRight_eq_div_pow]
  omega

theorem zero_not_mem_byteToHex (c : UInt8) : (0 : UInt8) ∉ byteToHex c := by
  have hdigit : ∀ nibble : UInt8, nibble.toNat < 16 →
      (if nibble < 10 then nibble + 48 else nibble + 87) ≠ 0 := by
    intro nibble hnibble hzero
    have htoNat := congrArg UInt8.toNat hzero
    split_ifs at htoNat <;>
    · rw [UInt8.toNat_add] at htoNat
      simp at htoNat
      omega
  simp only [byteToHex, mem_cons, not_mem_nil, or_false, not_or]
  exact ⟨Ne.symm (hdigit _ (toNat_shiftRight_four_lt _)),
    Ne.symm (hdigit _ (toNat_shiftRight_four_lt _))⟩

theorem zero_not_mem_md5ToHex (digest : Vector UInt8 16) : (0 : UInt8) ∉ md5ToHex digest := by
  rw [md5ToHex, mem_flatMap]
  rintro ⟨c, -, hc⟩
  exact zero_not_mem_byteToHex c hc

theorem length_md5ToHex (digest : Vector UInt8 16) : (md5ToHex digest).length = 32 := by
  simp [md5ToHex, byteToHex, length_flatMap, map_const']

/-- A string that ends within the count is compared as a whole. -/
theorem strncmpEq_iff {s t : CString} {count : ℕ}
    (hcount : s.bytes.length ≤ count) : strncmpEq s t count ↔ s = t := by
  rw [strncmpEq, take_of_length_le hcount]
  constructor
  · intro h
    rcases Nat.lt_or_ge count t.bytes.length with hlt | hge
    · -- then the end of the first string is inside of the second
      have hmem : (0 : UInt8) ∈ t.bytes.take count := by
        rw [← h, bytes]
        simp
      rw [length_bytes] at hlt
      rw [bytes, take_append_of_le_length (by omega)] at hmem
      exact absurd (mem_of_mem_take hmem) t.nul_not_mem
    · rw [take_of_length_le hge] at h
      exact (bytes_append_inj (congrArg (· ++ []) h)).1
  · rintro rfl
    rw [take_of_length_le hcount]

/-- A string that begins with others than its end. -/
theorem exists_text_of_take {s t : CString} {count : ℕ} (htake : s.bytes.take count = t.text) :
    ∃ r : CString, s.text = t.text ++ r.text ∧ ofBytes (s.bytes.drop count) = r := by
  have hsplit : s.text ++ [0] = t.text ++ s.bytes.drop count := by
    rw [← htake, take_append_drop, bytes]
  obtain ⟨r, htext, hrest⟩ : ∃ r, s.text = t.text ++ r ∧ s.bytes.drop count = r ++ [0] := by
    rcases append_eq_append_iff.mp hsplit with
      ⟨a, ht, hzero⟩ | ⟨r, htext, hrest⟩
    · cases a with
      | nil => exact ⟨[], by simpa using ht.symm, hzero.symm⟩
      | cons byte a =>
        obtain rfl : (0 : UInt8) = byte := (List.cons.inj hzero).1
        exact absurd (by rw [ht]; simp) t.nul_not_mem
    · exact ⟨r, htext, hrest⟩
  have hnul : (0 : UInt8) ∉ r := fun hmem =>
    s.nul_not_mem (htext ▸ mem_append_right _ hmem)
  have hofBytes := ofBytes_append ⟨r, hnul⟩ []
  rw [append_nil] at hofBytes
  exact ⟨⟨r, hnul⟩, htext, by rw [hrest]; exact hofBytes⟩

/-- Both comparisons together. -/
theorem strncmpEq_md5_iff {password : CString} {hex : List UInt8} (hlength : hex.length = 32)
    (hnul : (0 : UInt8) ∉ hex) :
    (strncmpEq password md5Text 3 ∧ strncmpEq (ofBytes (hex ++ [0]))
    (ofBytes (password.bytes.drop 3)) 33) ↔ password.text = md5Text.text ++ hex := by
  have hhex : ofBytes (hex ++ [0]) = ⟨hex, hnul⟩ := by
    have h := ofBytes_append ⟨hex, hnul⟩ []
    rwa [append_nil] at h
  have hcompare : ∀ t, strncmpEq ⟨hex, hnul⟩ t 33 ↔ ⟨hex, hnul⟩ = t :=
    fun t => strncmpEq_iff (by rw [length_bytes, hlength])
  rw [hhex, hcompare]
  constructor
  · rintro ⟨hmd5, hsent⟩
    obtain ⟨r, htext, hrest⟩ := @exists_text_of_take password md5Text 3 hmd5
    rw [hrest] at hsent
    rw [htext, ← hsent]
  · intro htext
    have hbytes : password.bytes = md5Text.text ++ (hex ++ [0]) := by
      rw [bytes, htext, append_assoc]
    constructor
    · rw [strncmpEq, hbytes]
      rfl
    · rw [hbytes, ← hhex]
      rfl

theorem zero_not_mem_passwordDigest {md5 : List UInt8 → Vector UInt8 16} {salt : Vector UInt8 4}
    {hash : List UInt8} : (0 : UInt8) ∉ passwordDigest md5 salt hash := by
  rw [passwordDigest, mem_append, not_or]
  exact ⟨md5Text.nul_not_mem, zero_not_mem_md5ToHex _⟩

end Strings

section Acceptance

variable {maxStrConst : ℕ} {md5 : List UInt8 → Vector UInt8 16}
  {users : List UInt8 → Option (List UInt8)} {password : CString}
  {parms : List StartupMessageParm} {salt : Vector UInt8 4} {stack behind : List UInt8}

theorem checkPassword_eq_ok_iff {buffer : List UInt8} : (strncmpEq password md5Text 3 ∧
    checkPassword md5 password salt buffer = some (.ok ())) ↔ 3 ≤ buffer.length ∧
    password.text = passwordDigest md5 salt (buffer.drop 3) := by
  rw [passwordDigest, ← strncmpEq_md5_iff (length_md5ToHex _)
    (zero_not_mem_md5ToHex _), checkPassword, and_left_comm]
  refine and_congr_right fun _ => ?_
  split_ifs with hempty hshort
  · exact iff_of_false (by simp [fail]) (by omega)
  · exact iff_of_false (by simp) (by omega)
  · rw [and_iff_right (not_lt.mp hshort)]
    simp [fail]

theorem handlePasswordMessage_eq_ok_iff :
    handlePasswordMessage maxStrConst md5 users password parms salt stack behind = some (.ok ()) ↔
    ∃ hash, hashedPassword maxStrConst users parms stack behind = some hash ∧
    password.text = passwordDigest md5 salt hash := by
  unfold handlePasswordMessage hashedPassword
  by_cases hmd5 : strncmpEq password md5Text 3
  swap
  · rw [if_pos hmd5]
    refine iff_of_false (by simp [fail]) ?_
    rintro ⟨hash, -, htext⟩
    exact hmd5 ((strncmpEq_md5_iff (length_md5ToHex _) (zero_not_mem_md5ToHex _)).mpr htext).1
  rw [if_neg (not_not.mpr hmd5)]
  cases users (username maxStrConst parms stack).text with
  | none => simp [fail]
  | some row =>
    by_cases hlong : row.length > maxStrConst
    · simp [hlong]
    · simp only [if_neg hlong, bind_some]
      cases getUserColumnValue maxStrConst row behind rolPassword with
      | none => simp
      | some buffer =>
        rw [bind_some, bind_some,
          ← and_iff_right hmd5 (b := checkPassword _ _ _ _ = _), checkPassword_eq_ok_iff]
        by_cases hshort : buffer.length < 3
        · simp [hshort]
        · simp [hshort, not_lt.mp hshort]

end Acceptance

section Users

variable {maxStrConst : ℕ} {users : List UInt8 → Option (List UInt8)}
  {parms : List StartupMessageParm} {stack behind row field : List UInt8}

def passwordField (row : List UInt8) : Option (List UInt8) :=
  (row.splitOn columnDelimiter)[rolPassword]?

/-- A user of the startup message has the hash stored. -/
def IsStoredHash (users : List UInt8 → Option (List UInt8))
    (parms : List StartupMessageParm) (hash : List UInt8) : Prop :=
  ∃ parm ∈ parms, parm.1 = userText ∧ ∃ row, users parm.2.text = some row ∧
    passwordField row = some (md5Text.text ++ hash)

/-- Whatever a client answers, it is let in exactly if the answer is made from a
hash that a user of the startup message has stored. -/
def Authenticates (maxStrConst : ℕ) (md5 : List UInt8 → Vector UInt8 16)
    (users : List UInt8 → Option (List UInt8)) (parms : List StartupMessageParm)
    (salt : Vector UInt8 4) (stack behind : List UInt8) : Prop :=
  ∀ password, handlePasswordMessage maxStrConst md5 users password parms salt stack behind =
      some (.ok ()) ↔
    ∃ hash, IsStoredHash users parms hash ∧ password.text = passwordDigest md5 salt hash

theorem splitOn_cons (byte : UInt8) (row : List UInt8) : (byte :: row).splitOn columnDelimiter =
      if byte = columnDelimiter then [] :: row.splitOn columnDelimiter
      else (row.splitOn columnDelimiter).modifyHead (byte :: ·) := by
  simp [splitOn_eq_splitOnP, splitOnP_cons_eq_if_modifyHead]

/-- A column that a delimiter follows is found as it is. -/
theorem valueLength_columnStart {column : ℕ}
    (hmore : column + 1 < (row.splitOn columnDelimiter).length)
    (hfield : (row.splitOn columnDelimiter)[column]? = some field) :
    valueLength (columnStart column row ++ behind) = some field.length ∧
      field <+: columnStart column row := by
  induction row generalizing column field with
  | nil => simp at hmore
  | cons byte row ih =>
    rw [splitOn_cons] at hmore hfield
    by_cases hbyte : byte = columnDelimiter
    · rw [if_pos hbyte] at hmore hfield
      cases column with
      | zero =>
        obtain rfl : [] = field := by simpa using hfield
        simp [columnStart, valueLength, hbyte]
      | succ column =>
        rw [columnStart, if_pos hbyte]
        exact ih (by simpa using hmore) (by simpa using hfield)
    · rw [if_neg hbyte] at hmore hfield
      cases hsplit : row.splitOn columnDelimiter with
      | nil => simp [hsplit] at hmore
      | cons first others =>
        rw [hsplit, modifyHead_cons] at hmore hfield
        rw [hsplit] at ih
        cases column with
        | zero =>
          obtain rfl : byte :: first = field := by simpa using hfield
          obtain ⟨hlength, hstart⟩ := @ih first 0 hmore rfl
          rw [columnStart] at hlength hstart ⊢
          rw [cons_append, valueLength, if_neg hbyte, hlength]
          exact ⟨rfl, (cons_prefix_cons).mpr ⟨rfl, hstart⟩⟩
        | succ column =>
          rw [columnStart, if_neg hbyte]
          exact ih hmore hfield

/-- A field without NUL is copied as it is. -/
theorem strncpy_of_start {start : List UInt8} (hnul : (0 : UInt8) ∉ field)
    (hstart : field <+: start) : strncpy start field.length = field := by
  have hall : ∀ byte ∈ field, decide (byte ≠ 0) = true := by
    intro byte hbyte
    exact decide_eq_true fun hzero => hnul (hzero ▸ hbyte)
  have htext := takeWhile_eq_self_iff.mpr hall
  simp only [strncpy, ← prefix_iff_eq_take.mp hstart, htext, Nat.sub_self,
    replicate_zero, append_nil]

theorem length_columnStart_le (column : ℕ) (row : List UInt8) :
    (columnStart column row).length ≤ row.length := by
  induction row generalizing column with
  | nil => cases column <;> exact le_rfl
  | cons byte row ih =>
    cases column with
    | zero => exact le_rfl
    | succ column =>
      rw [columnStart]
      split_ifs
      · exact (ih column).trans (Nat.le_succ _)
      · exact (ih (column + 1)).trans (Nat.le_succ _)

theorem getUserColumnValue_eq (hfits : row.length ≤ maxStrConst)
    (hmore : rolPassword + 1 < (row.splitOn columnDelimiter).length)
    (hfield : passwordField row = some field) (hnul : (0 : UInt8) ∉ field) :
    getUserColumnValue maxStrConst row behind rolPassword = some field := by
  obtain ⟨hlength, hstart⟩ := @valueLength_columnStart behind row field _ hmore hfield
  have hle := length_columnStart_le rolPassword row
  have hshort := hstart.length_le
  have hbehind : field <+: columnStart rolPassword row ++ behind :=
    hstart.trans (prefix_append _ _)
  simp only [getUserColumnValue, hlength, map_some, strncpy_of_start hnul hbehind]
  rw [if_neg (by omega)]

/-- A string with room for its end is copied with it. -/
theorem strncpy_cstring {s : CString} {count : ℕ} (hshort : s.text.length < count) :
    strncpy s.bytes count = s.bytes ++ List.replicate (count - s.text.length - 1) 0 := by
  have htext : s.bytes.takeWhile (fun byte => decide (byte ≠ 0)) = s.text := by
    have hofBytes := congrArg text (ofBytes_append s [])
    rwa [append_nil] at hofBytes
  have hcount : count - s.text.length = count - s.text.length - 1 + 1 := by
    omega
  have hlength : s.bytes.length ≤ count := by
    rw [length_bytes]
    omega
  simp only [strncpy, take_of_length_le hlength, htext]
  rw [hcount, replicate_succ, bytes, append_assoc]
  rfl

/-- The startup message names one user, whose name fits into the buffer. -/
structure NamesUser (maxStrConst : ℕ) (parms : List StartupMessageParm) (user : CString) :
    Prop where
  fits : user.text.length < maxStrConst
  mem : (userText, user) ∈ parms
  only : ∀ parm ∈ parms, parm.1 = userText → parm.2 = user

/-- A row that fits into the buffer and has a delimiter behind a password without
NUL. -/
structure HasPlainField (maxStrConst : ℕ) (row field : List UInt8) : Prop where
  fits : row.length ≤ maxStrConst
  more : rolPassword + 1 < (row.splitOn columnDelimiter).length
  field_eq : passwordField row = some field
  nul_not_mem : (0 : UInt8) ∉ field

section Plain

variable {user : CString} (huser : NamesUser maxStrConst parms user)
include huser

/-- The name of the user is looked up. -/
theorem username_eq : username maxStrConst parms stack = user := by
  have hfind : ∃ parm, (parms.find? fun parm => parm.1 = userText) = some parm ∧ parm.2 = user := by
    cases hfind : parms.find? fun parm => parm.1 = userText with
    | none =>
      exact absurd (find?_eq_none.mp hfind _ huser.mem) (by simp)
    | some parm =>
      exact ⟨parm, rfl,
        huser.only parm (mem_of_find?_eq_some hfind) (by simpa using find?_some hfind)⟩
  obtain ⟨parm, hparm, rfl⟩ := hfind
  rw [username, hparm]
  change ofBytes (strncpy parm.2.bytes maxStrConst ++ _) = parm.2
  rw [strncpy_cstring huser.fits, append_assoc, ofBytes_append]

theorem hashedPassword_of_unknown (hunknown : users user.text = none) :
    hashedPassword maxStrConst users parms stack behind = none := by
  rw [hashedPassword, username_eq huser, hunknown, bind_none]

theorem hashedPassword_of_plain (hrow : users user.text = some row)
    (hplain : HasPlainField maxStrConst row field) :
    hashedPassword maxStrConst users parms stack behind =
      if field.length < 3 then none else some (field.drop 3) := by
  rw [hashedPassword, username_eq huser, hrow, bind_some, if_neg (not_lt.mpr hplain.fits),
    getUserColumnValue_eq hplain.fits hplain.more hplain.field_eq hplain.nul_not_mem, bind_some]

theorem isStoredHash_iff (hash : List UInt8) : IsStoredHash users parms hash ↔
    ∃ row, users user.text = some row ∧ passwordField row = some (md5Text.text ++ hash) := by
  constructor
  · rintro ⟨parm, hparm, hname, hstored⟩
    rwa [huser.only parm hparm hname] at hstored
  · exact fun hstored => ⟨_, huser.mem, rfl, hstored⟩

theorem isStoredHash_of_plain (hrow : users user.text = some row)
    (hplain : HasPlainField maxStrConst row field) (hash : List UInt8) :
    IsStoredHash users parms hash ↔ field = md5Text.text ++ hash := by
  simp [isStoredHash_iff huser, hrow, hplain.field_eq]

end Plain

end Users

end Password

open Password in
/-- For a startup message that names one user: an unknown user is never let in,
and one with a plain password field is let in for the right answers only, and
for all of them, exactly if the field begins with `md5` or is too short to hold a
hash.  The first three bytes are skipped, not compared. -/
theorem handlePasswordMessage_authenticates_iff (maxStrConst : ℕ)
    (md5 : List UInt8 → Vector UInt8 16) (users : List UInt8 → Option (List UInt8))
    (parms : List StartupMessageParm) (salt : Vector UInt8 4) (stack behind : List UInt8)
    (user : CString) (huser : NamesUser maxStrConst parms user) :
    (users user.text = none →
      Authenticates maxStrConst md5 users parms salt stack behind) ∧
    ∀ row field, users user.text = some row → HasPlainField maxStrConst row field →
      (Authenticates maxStrConst md5 users parms salt stack behind ↔
        field.length < 3 ∨ md5Text.text <+: field) := by
  simp only [Authenticates, handlePasswordMessage_eq_ok_iff]
  constructor
  · intro hunknown password
    rw [hashedPassword_of_unknown huser hunknown]
    refine iff_of_false (by simp) ?_
    rintro ⟨hash, hstored, -⟩
    obtain ⟨row, hrow, -⟩ := (isStoredHash_iff huser hash).mp hstored
    rw [hunknown] at hrow
    cases hrow
  · intro row field hrow hplain
    rw [hashedPassword_of_plain huser hrow hplain]
    simp only [isStoredHash_of_plain huser hrow hplain]
    constructor
    · intro hsame
      by_contra hneither
      rw [not_or] at hneither
      obtain ⟨hash, hfield, -⟩ :=
        (hsame ⟨passwordDigest md5 salt (field.drop 3), zero_not_mem_passwordDigest⟩).mp
          ⟨field.drop 3, if_neg hneither.1, rfl⟩
      exact hneither.2 ⟨hash, hfield.symm⟩
    · rintro (hshort | ⟨hash, rfl⟩) password
      · rw [if_pos hshort]
        refine iff_of_false (by simp) ?_
        rintro ⟨hash, rfl, -⟩
        simp [md5Text] at hshort
        omega
      · simp [md5Text]

namespace PasswordWitness

def rowWith (field : List UInt8) : List UInt8 :=
  List.replicate 10 columnDelimiter ++ field ++ [columnDelimiter]

/-- Every user has the password field that is given. -/
def usersWith (field : List UInt8) (_ : List UInt8) : Option (List UInt8) :=
  some (rowWith field)

/-- The startup message of the user `a`. -/
def parms : List StartupMessageParm :=
  [(Password.userText, ⟨[97], by decide⟩)]

theorem parms_name : Password.NamesUser 32768 parms ⟨[97], by decide⟩ where
  fits := by decide
  mem := by simp [parms]
  only := by simp [parms]

def digestOf (text : List UInt8) : Vector UInt8 16 :=
  .replicate 16 (text.headD 0)

end PasswordWitness

open Password PasswordWitness

/-- A user with a stored `md5h`, and a table without users. -/
theorem marked_password_authenticates :
    Authenticates 32768 digestOf (usersWith [109, 100, 53, 104]) parms (.replicate 4 7) [] [] ∧
    Authenticates 32768 digestOf (fun _ => none) parms (.replicate 4 7) [] [] :=
  ⟨((handlePasswordMessage_authenticates_iff _ _ (usersWith [109, 100, 53, 104]) _ _ _ _ _
      parms_name).2 _ [109, 100, 53, 104] rfl
      ⟨by decide, by decide, by decide, by decide⟩).mpr (by decide),
    (handlePasswordMessage_authenticates_iff _ _ (fun _ => none) _ _ _ _ _ parms_name).1 rfl⟩

/-- A stored value that does not begin with `md5` is accepted like one that
does. -/
theorem unmarked_password_is_accepted : (∃ password, handlePasswordMessage 32768 digestOf
      (usersWith [120, 121, 122, 104]) password parms (.replicate 4 7) [] [] = some (.ok ())) ∧
    ∀ hash, ¬IsStoredHash (usersWith [120, 121, 122, 104]) parms hash := by
  have hrow : usersWith [120, 121, 122, 104] [97] = some (rowWith [120, 121, 122, 104]) := rfl
  have hplain : HasPlainField 32768 (rowWith [120, 121, 122, 104]) [120, 121, 122, 104] :=
    ⟨by decide, by decide, by decide, by decide⟩
  constructor
  · refine ⟨⟨passwordDigest digestOf (.replicate 4 7) [104], zero_not_mem_passwordDigest⟩, ?_⟩
    exact handlePasswordMessage_eq_ok_iff.mpr
      ⟨[104], hashedPassword_of_plain parms_name hrow hplain, rfl⟩
  · intro hash hstored
    have hfield := (isStoredHash_of_plain parms_name hrow hplain hash).mp hstored
    simp [md5Text] at hfield

end Octo
