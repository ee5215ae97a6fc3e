/-
Binding the parameters of a prepared statement.  Every dollar sign of the text is
replaced, with the digits behind it, by the parameter of that number between
quotes.
-/
import Octo.MessageMemory
import Octo.MValue
import Octo.SchemaChunks

namespace Octo

open MessageBytes MValue

/-- The parameters of a Bind message, as texts; their number has two bytes and a
sign. -/
structure TextParms where
  values : List (List Char)
  count : values.length < 2 ^ 15

/-- How a Bind can fail; the last two are errors of the process. -/
inductive BindError
  | response (text : String)
  | assertion
deriving DecidableEq, Repr

/-- `atoi` of digits: the number is read as a `long`, which ends at its largest
value, and cut to an `int`. -/
def atoi (digits : List Char) : ℤ :=
  signed 4 (min (digitsValue digits) (2 ^ 63 - 1) % 2 ^ 32)

/-- The value that is put in place of a dollar sign with digits: -1 stands for a
null value. -/
def TextParms.bindParm (parms : TextParms) (digits : List Char) : Option (List Char) :=
  if atoi digits = -1 then some []
  else if atoi digits ≥ parms.values.length ∨ atoi digits < 0 then none
  else parms.values[(atoi digits).toNat]?

/-- The loop of `handle_bind`, with the number of bytes written so far. -/
def bindLoop (parms : TextParms) (written : ℕ) (text : List Char) : Except BindError (List Char) :=
  match text with
  | [] => .ok []
  | c :: rest =>
    if c = '$' then
      match parms.bindParm (rest.takeWhile Char.isDigit) with
      | none => .error (.response "wrong number of parameters for prepared statement")
      | some value =>
        if written + value.length + 2 < maxStrConst then
          (bindLoop parms (written + value.length + 2)
            (rest.dropWhile Char.isDigit)).map fun bound =>
              '\x22' :: value ++ '\x22' :: bound
        else if value = [] then .error .assertion
        else .error (.response "expression exceeds maximum buffer length")
    else if written + 1 < maxStrConst then
      (bindLoop parms (written + 1) rest).map (c :: ·)
    else .error .assertion
termination_by text.length
decreasing_by
  · exact Nat.lt_succ_of_le (List.dropWhile_suffix _).length_le
  · exact Nat.lt_succ_self _

/-- The bound query, of the text that Parse has stored. -/
def handleBind (parms : TextParms) (prepared : Option (List Char)) : Except BindError (List Char) :=
  match prepared with
  | none => .error (.response "Bind to unknown query attempted")
  | some text => bindLoop parms 0 text

/-- The text with every dollar sign replaced. -/
def TextParms.bind (parms : TextParms) (text : List Char) : List Char :=
  match text with
  | [] => []
  | c :: rest =>
    if c = '$' then
      '\x22' :: (parms.bindParm (rest.takeWhile Char.isDigit)).getD [] ++
        '\x22' :: parms.bind (rest.dropWhile Char.isDigit)
    else c :: parms.bind rest
termination_by text.length
decreasing_by
  · exact Nat.lt_succ_of_le (List.dropWhile_suffix _).length_le
  · exact Nat.lt_succ_self _

section Loop

variable {parms : TextParms}

theorem TextParms.bind_cons {c : Char} (hc : c ≠ '$') (rest : List Char) :
    parms.bind (c :: rest) = c :: parms.bind rest := by
  rw [TextParms.bind, if_neg hc]

theorem TextParms.bind_dollar (rest : List Char) : parms.bind ('$' :: rest) =
      '\x22' :: ((parms.bindParm (rest.takeWhile Char.isDigit)).getD [] ++
        '\x22' :: parms.bind (rest.dropWhile Char.isDigit)) := by
  rw [TextParms.bind, if_pos rfl]
  rfl

theorem TextParms.bind_nil : parms.bind [] = [] := by
  rw [TextParms.bind]

variable {bound digits value : List Char}

/-- What is stored is the text with every dollar sign replaced. -/
theorem bindLoop_eq_ok {written : ℕ} {text : List Char}
    (hbound : bindLoop parms written text = .ok bound) : bound = parms.bind text := by
  fun_induction bindLoop parms written text generalizing bound with
  | case1 =>
    rw [TextParms.bind_nil]
    exact (Except.ok.inj hbound).symm
  | case2 => cases hbound
  | case3 written rest value hvalue hfits ih =>
    cases hrest : bindLoop parms (written + value.length + 2) (rest.dropWhile Char.isDigit) with
    | error failure =>
      rw [hrest] at hbound
      cases hbound
    | ok later =>
      rw [hrest] at hbound
      rw [TextParms.bind_dollar, hvalue, ← ih hrest]
      exact (Except.ok.inj hbound).symm
  | case4 => cases hbound
  | case5 => cases hbound
  | case6 written c rest hc hfits ih =>
    cases hrest : bindLoop parms (written + 1) rest with
    | error failure =>
      rw [hrest] at hbound
      cases hbound
    | ok later =>
      rw [hrest] at hbound
      rw [TextParms.bind_cons hc, ← ih hrest]
      exact (Except.ok.inj hbound).symm
  | case7 => cases hbound

theorem atoi_of_lt (hlt : digitsValue digits < 2 ^ 15) : atoi digits = digitsValue digits := by
  have hmin : min (digitsValue digits) (2 ^ 63 - 1) % 2 ^ 32 = digitsValue digits := by
    omega
  rw [atoi, hmin]
  exact signed_of_lt (by omega)

/-- A number that a parameter has is not changed by `atoi`. -/
theorem TextParms.bindParm_of_getElem? (hvalue : parms.values[digitsValue digits]? = some value) :
    parms.bindParm digits = some value := by
  have hlt := (List.getElem?_eq_some_iff.mp hvalue).1
  have hatoi := atoi_of_lt (hlt.trans parms.count)
  rw [TextParms.bindParm, hatoi, if_neg (by omega), if_neg (by omega)]
  exact hvalue

theorem TextParms.mem_of_bindParm (hvalue : parms.bindParm digits = some value) :
    value = [] ∨ value ∈ parms.values := by
  rw [TextParms.bindParm] at hvalue
  split_ifs at hvalue
  · exact .inl (Option.some.inj hvalue).symm
  · exact .inr (List.mem_of_getElem? hvalue)

/-- What is put between the quotes is a parameter or nothing. -/
theorem TextParms.bindParm_getD {motive : List Char → Prop} (hnil : motive [])
    (hvalues : ∀ value ∈ parms.values, motive value) (digits : List Char) :
    motive ((parms.bindParm digits).getD []) := by
  cases hvalue : parms.bindParm digits with
  | none => exact hnil
  | some value =>
    rcases TextParms.mem_of_bindParm hvalue with rfl | hmem
    · exact hnil
    · exact hvalues value hmem

end Loop

end Octo
