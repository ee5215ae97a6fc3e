/-
String literals on their way from SQL to M.  The lexer puts one quote for two
and keeps what fits into its buffer.  `tmpl_print_expression` puts the string
between two quotes as it is, though M too wants a quote in it written twice.
-/
import Octo.PrintExpression
import Octo.SchemaChunks
import Octo.SqlLexer

namespace Octo

open MExpression SqlLexer

def byteSize (text : List Char) : ℕ :=
  (text.map Char.utf8Size).sum

theorem byteSize_append (first second : List Char) :
    byteSize (first ++ second) = byteSize first + byteSize second := by
  simp [byteSize]

/-- The quotes in a string, written twice. -/
def doubled (quote : Char) (value : List Char) : List Char :=
  value.flatMap fun c => if c = quote then [c, c] else [c]

/-- A literal is its string with the quotes written twice, up to a quote that
no other follows. -/
theorem readLiteral_eq_some_iff {quote : Char} {rest value behind : List Char} :
    readLiteral quote rest = some (value, behind) ↔ rest = doubled quote value ++ quote :: behind ∧
    behind.head? ≠ some quote := by
  constructor
  · intro hread
    fun_induction readLiteral quote rest generalizing value behind with
    | case1 => cases hread
    | case2 =>
      cases hread
      exact ⟨rfl, by simp⟩
    | case3 => cases hread
    | case4 c d rest hc ih =>
      obtain ⟨⟨read, later⟩, hread', ⟨⟩⟩ := Option.map_eq_some_iff.mp hread
      obtain ⟨hrest, hbehind⟩ := ih hread'
      rw [hrest]
      exact ⟨by simp [doubled, hc], hbehind⟩
    | case5 c rest hc ih =>
      obtain ⟨⟨read, later⟩, hread', ⟨⟩⟩ := Option.map_eq_some_iff.mp hread
      obtain ⟨hrest, hbehind⟩ := ih hread'
      have hc : c = quote := not_not.mp hc
      exact ⟨by simp [doubled, hrest, hc], hbehind⟩
    | case6 c d rest hc hd =>
      cases hread
      have hc : c = quote := not_not.mp hc
      exact ⟨by simp [doubled, hc], by simpa using hd⟩
  · rintro ⟨rfl, hbehind⟩
    induction value with
    | nil => exact readLiteral_close hbehind
    | cons c value ih =>
      rw [doubled] at ih
      by_cases hc : c = quote
      · subst hc
        simp only [doubled, List.flatMap_cons, if_pos, List.cons_append, List.nil_append]
        rw [readLiteral_pair]
        simp [ih]
      · simp only [doubled, List.flatMap_cons, if_neg hc, List.cons_append, List.nil_append]
        rw [readLiteral_cons hc]
        simp [ih]

/-- The value of a string literal.  `string_buffer` has `MAX_STR_CONST` bytes
and needs one more than the string for the NUL behind it. -/
def lexString (c : Char) (rest : List Char) : Option SqlValue :=
  match lexItem c rest with
  | some ([.literal value], _) =>
    if (String.ofList value).utf8ByteSize < maxStrConst then
      some ⟨.stringLiteral, String.ofList value⟩
    else none
  | _ => none

/-- A text on one line of M that is one string literal with this value. -/
def IsStringExpr (text value : List Char) : Prop :=
  '\n' ∉ text ∧ parse text = some (.literal value)

/-- The lexer reads a string literal and what is printed for it in M is one
string literal again, with the same string. -/
def PrintsString (refs : References) (c : Char) (rest value : List Char) :
    Prop :=
  ∃ literal printed, lexString c rest = some literal ∧
    tmplPrintExpression refs (.value literal) = some printed ∧ IsStringExpr printed value

theorem printsString_iff (refs : References) {c : Char} {rest value behind : List Char}
    (hliteral : lexItem c rest = some ([.literal value], behind)) : PrintsString refs c rest value ↔
    (String.ofList value).utf8ByteSize < maxStrConst ∧ '"' ∉ value ∧ '\n' ∉ value := by
  have hquoted : IsStringExpr ('"' :: value ++ ['"']) value ↔ '"' ∉ value ∧ '\n' ∉ value := by
    rw [IsStringExpr, parse_quoted_iff]
    simp [and_comm]
  rw [← hquoted]
  by_cases hfits : (String.ofList value).utf8ByteSize < maxStrConst
  · simp [PrintsString, lexString, hliteral, hfits, tmplPrintExpression, printValue]
  · simp [PrintsString, lexString, hliteral, hfits]

namespace StringLiteral

def refs : References where
  column := fun _ => .reference []
  columnIsString := fun _ => false
  key := fun _ => []

end StringLiteral

open StringLiteral in
theorem printsString_apostrophe : lexItem '\x27' "it\x27\x27s\x27".toList =
        some ([.literal "it\x27s".toList], []) ∧
      PrintsString refs '\x27' "it\x27\x27s\x27".toList "it\x27s".toList := by
  have hliteral : lexItem '\x27' "it\x27\x27s\x27".toList =
      some ([.literal "it\x27s".toList], []) := by
    decide +kernel
  exact ⟨hliteral, (printsString_iff refs hliteral).mpr (by decide +kernel)⟩

open StringLiteral in
/-- The string `"_$J_"` becomes the job number of the process. -/
theorem string_becomes_code : (∃ literal printed,
      lexString '\x27' "\x22_$J_\x22\x27".toList = some literal ∧
      tmplPrintExpression refs (.value literal) = some printed ∧
      parse printed = some (.binary .concat (.binary .concat (.literal []) (.reference "$J".toList))
      (.literal []))) ∧
    ¬ PrintsString refs '\x27' "\x22_$J_\x22\x27".toList "\x22_$J_\x22".toList := by
  have hlex : lexString '\x27' "\x22_$J_\x22\x27".toList =
      some ⟨.stringLiteral, "\x22_$J_\x22"⟩ := by
    decide +kernel
  have hparse : parse "\x22\x22_$J_\x22\x22".toList = some (.binary .concat
      (.binary .concat (.literal []) (.reference "$J".toList)) (.literal [])) := by
    decide +kernel
  refine ⟨⟨_, _, hlex, rfl, hparse⟩, ?_⟩
  rintro ⟨literal, printed, hliteral, hprinted, -, hstring⟩
  cases hliteral
  cases hprinted
  have hother := hstring.symm.trans hparse
  cases hother

end Octo
