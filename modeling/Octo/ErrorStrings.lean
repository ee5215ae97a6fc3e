/-
The error texts of one buffer.  `format_error_string` moves its offset on by the
length of a text without its NUL, so the next text is written over the NUL; the
offset stays where it is when a text is cut.
-/
import Octo.MessageBytes
import Octo.SchemaChunks

namespace Octo

open List MessageBytes

structure ErrorBuffer where
  buffer : List UInt8
  offset : ℕ

namespace ErrorBuffer

variable {messages : List CString} {message : CString} {front tail : List UInt8}

/-- What `vsnprintf` has room for behind an offset. -/
def cut (offset : ℕ) (message : CString) : List UInt8 :=
  message.text.take (maxStrConst - offset - 1)

def nextOffset (offset : ℕ) (message : CString) : ℕ :=
  if maxStrConst ≤ message.text.length + offset then offset else offset + message.text.length

/-- `format_error_string`; none if the length with the offset is no int.  Writing
behind the end would make the buffer longer. -/
def formatErrorString (message : CString) (errBuff : ErrorBuffer) : Option ErrorBuffer :=
  let offset := errBuff.offset
  let written := cut offset message ++ [0]
  if message.text.length + offset < 2147483648 then
    some ⟨errBuff.buffer.take offset ++ written ++ errBuff.buffer.drop (offset + written.length),
      nextOffset offset message⟩
  else none

/-- The calls one after the other: where their strings are, and the last buffer. -/
def formatAll : List CString → ErrorBuffer → Option (List (ℕ × CString) × ErrorBuffer)
  | [], errBuff => some ([], errBuff)
  | message :: messages, errBuff => do
    let next ← formatErrorString message errBuff
    let (strings, last) ← formatAll messages next
    some ((errBuff.offset, message) :: strings, last)

def stringAt (errBuff : ErrorBuffer) (offset : ℕ) : List UInt8 :=
  (CString.ofBytes (errBuff.buffer.drop offset)).text

def Keeps (errBuff : ErrorBuffer) (strings : List (ℕ × CString)) : Prop :=
  ∀ string ∈ strings, errBuff.stringAt string.1 = cut string.1 string.2

/-- Each text is what was already there: nothing if the text before it fits, and
that text if it is cut. -/
def Survive : List CString → ℕ → Prop
  | [], _ => True
  | message :: messages, offset =>
    let next := nextOffset offset message
    message.text.length + offset < 2147483648 ∧
    (∀ other ∈ messages.head?, cut next other = (cut offset message).drop (next - offset)) ∧
      Survive messages next

/-- A text that fits is kept, and one that is cut is left to be written over. -/
theorem formatErrorString_spec (hlength : (front ++ tail).length = maxStrConst)
    (hoffset : front.length < maxStrConst)
    (hint : message.text.length + front.length < 2147483648) :
    ∃ kept left rest, cut front.length message = kept ++ left ∧
      nextOffset front.length message = (front ++ kept).length ∧
      (front ++ kept).length < maxStrConst ∧
      (front ++ kept ++ (left ++ 0 :: rest)).length = maxStrConst ∧
      formatErrorString message ⟨front ++ tail, front.length⟩ =
        some ⟨front ++ kept ++ (left ++ 0 :: rest), (front ++ kept).length⟩ := by
  obtain ⟨kept, left, hcut, hnext, hlt⟩ : ∃ kept left, cut front.length message = kept ++ left ∧
      nextOffset front.length message = (front ++ kept).length ∧
      (front ++ kept).length < maxStrConst := by
    by_cases hcut : maxStrConst ≤ message.text.length + front.length
    · exact ⟨[], _, rfl, by simp [nextOffset, hcut], by simpa using hoffset⟩
    · refine ⟨message.text, [], ?_, by simp [nextOffset, hcut], by simp; omega⟩
      rw [cut, take_of_length_le (by omega), append_nil]
  refine ⟨kept, left, _, hcut, hnext, hlt, ?_, by simp [formatErrorString, hint, hcut, hnext]; rfl⟩
  have hle : (kept ++ left).length ≤ maxStrConst - front.length - 1 :=
    hcut ▸ length_take_le _ _
  simp at hle hlength ⊢
  omega

theorem stringAt_append {errBuff : ErrorBuffer} {text rest : List UInt8} (hnul : 0 ∉ text)
    (hbuffer : errBuff.buffer = front ++ text ++ rest) :
    errBuff.stringAt front.length = text ++ errBuff.stringAt (front ++ text).length := by
  have hread := CString.text_ofBytes_append ⟨text, hnul⟩ rest
  simpa [stringAt, hbuffer] using hread

/-- The bytes before the offset stay, so the string of a call goes on with the
string at the next offset. -/
theorem formatAll_spec (hlength : (front ++ tail).length = maxStrConst)
    (hoffset : front.length < maxStrConst) {errBuff : ErrorBuffer}
    (herr : errBuff = ⟨front ++ tail, front.length⟩) :
    (formatAll messages errBuff = none → ¬Survive messages front.length) ∧
    ∀ strings last, formatAll messages errBuff = some (strings, last) →
      ∃ rest, last.buffer = front ++ rest ∧ last.buffer.length = maxStrConst ∧
        (messages = [] → rest = tail) ∧
        (∀ message ∈ messages.head?, (front.length, message) ∈ strings) ∧
        (last.Keeps strings ↔ Survive messages front.length) := by
  subst herr
  induction messages generalizing front tail with
  | nil => simpa [formatAll, Keeps, Survive] using hlength
  | cons message messages ih =>
    by_cases hint : message.text.length + front.length < 2147483648
    · obtain ⟨kept, left, behind, hcut, hnext, hlt, hroom, hstep⟩ :=
        formatErrorString_spec hlength hoffset hint
      obtain ⟨hnone, hsome⟩ := ih hroom hlt
      have hnul : ∀ part, part ⊆ kept ++ left → (0 : UInt8) ∉ part := fun _ hpart hmem =>
        message.nul_not_mem (mem_of_mem_take (hcut ▸ hpart hmem))
      have hleft : (cut front.length message).drop ((front ++ kept).length - front.length) =
          left := by
        simp [hcut]
      simp only [formatAll, hstep, Option.bind_eq_bind, Option.bind_some, Survive, hint, hnext,
        hleft, true_and]
      cases hformat : formatAll messages
          ⟨front ++ kept ++ (left ++ 0 :: behind), (front ++ kept).length⟩ with
      | none => simpa using fun _ => hnone hformat
      | some result =>
        obtain ⟨strings, last⟩ := result
        obtain ⟨rest, hbuffer, hlast, hnil, hhead, hkeeps⟩ := hsome strings last hformat
        refine ⟨nofun, ?_⟩
        rintro _ _ ⟨⟩
        refine ⟨kept ++ rest, by simp [hbuffer], hlast, nofun, by simp, ?_⟩
        rw [Keeps, forall_mem_cons, ← hkeeps]
        refine and_congr_left fun hkept => ?_
        rw [stringAt_append (hnul _ (subset_append_left ..)) hbuffer, hcut, append_cancel_left_eq]
        cases messages with
        | nil =>
          rw [hnil rfl, ← append_assoc] at hbuffer
          rw [stringAt_append (hnul _ (subset_append_right ..)) hbuffer]
          simp [stringAt, hbuffer, CString.ofBytes]
        | cons other _ =>
          have hstring : last.stringAt (front ++ kept).length = _ := hkept _ (hhead other rfl)
          rw [hstring]
          simp
    · simp [formatAll, formatErrorString, Survive, hint]

end ErrorBuffer

open ErrorBuffer

/-- All strings are still there after the last call, and nothing was written outside
the buffer, exactly if each text that follows another adds nothing to it. -/
theorem error_strings_survive_iff (contents : { bytes : List UInt8 // bytes.length = maxStrConst })
    (messages : List CString) :
    (∃ strings last, formatAll messages ⟨contents, 0⟩ = some (strings, last) ∧
    last.buffer.length = maxStrConst ∧ last.Keeps strings) ↔ Survive messages 0 := by
  obtain ⟨tail, hlength⟩ := contents
  obtain ⟨hnone, hsome⟩ := @formatAll_spec messages [] tail hlength (by decide) _ rfl
  cases hformat : formatAll messages ⟨tail, 0⟩ with
  | none => simpa using hnone hformat
  | some result =>
    obtain ⟨strings, last⟩ := result
    obtain ⟨-, -, hlast, -, -, hkeeps⟩ := hsome strings last hformat
    simpa [hlast] using hkeeps

/-- The texts a and b: the first string is ab after the second call. -/
theorem second_text_continues_first : ∃ last, formatAll [⟨[97], by decide⟩,
    ⟨[98], by decide⟩] ⟨replicate maxStrConst 0, 0⟩ =
    some ([(0, ⟨[97], by decide⟩), (1, ⟨[98], by decide⟩)], last) ∧ last.stringAt 0 = [97, 98] :=
  ⟨_, rfl, rfl⟩

end Octo
