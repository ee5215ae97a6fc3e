/-
The text of a table definition.  `emit_create_table` writes names in backquotes
and literals between quotes that `m_escape_string2` doubles.  What the lexer
makes of such a text, piece by piece.
-/
import Octo.CreateTable

namespace Octo

open SqlLexer Option
open Bool hiding or_false
open List hiding lex

section Emitter

/-- The loop of `m_escape_string2`, from the position `i` of a buffer of `size`
bytes on; none if it or the NUL behind it is written outside of the buffer. -/
def mEscapeString2 (size : ℕ) : ℕ → List Char → Option (List Char)
  | i, [] => if i < size then some [] else none
  | i, c :: rest =>
    if i < size then
      if c = '"' then
        (mEscapeString2 size (i + 2) rest).map ('"' :: '"' :: ·)
      else (mEscapeString2 size (i + c.utf8Size) rest).map (c :: ·)
    else none

def valueText (keyword : String) (value : Option (List Char)) : Option (List Char) := do
  let escaped ← mEscapeString2 maxStrConst 0 (← value)
  some (' ' :: keyword.toList ++ " \"".toList ++ escaped ++ ['"'])

/-- The text of a keyword.  That of DELIM is GLOBAL. -/
def keywordText (k : ColumnKeyword) : Option (List Char) :=
  match k.keyword with
  | .primaryKey => some " PRIMARY KEY".toList
  | .notNull => some " NOT NULL".toList
  | .uniqueConstraint => some " UNIQUE".toList
  | .optionalExtract => valueText "EXTRACT" k.value
  | .optionalPiece => valueText "PIECE" k.value
  | .optionalSource => valueText "GLOBAL" k.value
  | .optionalDelim => valueText "GLOBAL" k.value
  | .optionalKeyNum => valueText "KEY NUM" k.value
  | .optionalAdvance => valueText "ADVANCE" k.value
  | .noKeyword => some []
  | .optionalStart => valueText "START" k.value
  | .optionalEnd => valueText "END" k.value
  | _ => none

def typeText : TableStatement.DataType → Option (List Char)
  | .integerType => some " INTEGER".toList
  | .characterStringType => some " VARCHAR(25)".toList
  | _ => none

def quotedName (name : List Char) : List Char :=
  '\x60' :: name ++ ['\x60']

/-- `emit_column_specification`; none if an assertion fails. -/
def emitColumnSpecification (column : ColumnDefinition) : Option (List Char) := do
  let type ← typeText column.type
  let keywords ← column.keywords.mapM keywordText
  let text := quotedName column.name ++ type ++ keywords.flatten
  if byteSize text < maxStrConst then some text else none

/-- The specifications with commas between them. -/
def emitColumns : List ColumnDefinition → Option (List Char)
  | [] => some []
  | [column] => emitColumnSpecification column
  | column :: columns => do
    let first ← emitColumnSpecification column
    let others ← emitColumns columns
    some (first ++ ", ".toList ++ others)

def emitCreateTable (table : TableDefinition) : Option (List Char) := do
  let columns ← emitColumns table.columns
  let source ← valueText "GLOBAL" (some table.source)
  let delim ← valueText "DELIM" (some table.delim)
  some ("CREATE TABLE ".toList ++ quotedName table.name ++ " (".toList ++
    columns ++ [')'] ++ source ++ delim ++ [';'])

end Emitter

section Pieces

/-- Behind a piece of text comes something that ends words and literals. -/
def Separated (behind : List Char) : Prop :=
  ∀ c ∈ behind.head?, isWordChar c = false ∧ c ≠ '.' ∧ c ≠ '"'

/-- A piece of text that gives these tokens wherever it stands. -/
def Lexes (text : List Char) (tokens : List Token) : Prop :=
  ∀ behind, Separated behind → lex (text ++ behind) = tokens ++ lex behind

theorem Lexes.append {first second : List Char} {tokens others : List Token}
    (hfirst : Lexes first tokens) (hsecond : Lexes second others)
    (hseparated : ∀ behind, Separated behind → Separated (second ++ behind)) :
    Lexes (first ++ second) (tokens ++ others) := by
  intro behind hbehind
  rw [append_assoc, hfirst _ (hseparated behind hbehind), hsecond behind hbehind, append_assoc]

variable {c : Char} {rest text : List Char}

theorem separated_cons (hc : isWordChar c = false ∧ c ≠ '.' ∧ c ≠ '"') : Separated (c :: rest) := by
  intro d hd
  cases hd
  exact hc

theorem lex_space (rest : List Char) : lex (' ' :: rest) = lex rest := by
  have hitem : lexItem ' ' rest = some ([], rest) := rfl
  rw [lex_of_some hitem, nil_append]

theorem dropWhile_of_head {p : Char → Bool}
    (hhead : ∀ c ∈ text.head?, p c = false) : text.dropWhile p = text := by
  cases text with
  | nil => rfl
  | cons c rest => simp [hhead c rfl]

theorem takeWhile_of_head {p : Char → Bool}
    (hhead : ∀ c ∈ text.head?, p c = false) : text.takeWhile p = [] := by
  cases text with
  | nil => rfl
  | cons c rest => simp [hhead c rfl]

theorem lexes_word (hc : isWordStart c = true)
    (hspace : isSpace c = false) (hrest : rest.all isPlain = true) :
    Lexes (' ' :: c :: rest) [.word (c :: rest)] := by
  intro behind hbehind
  have hplain : ∀ d ∈ rest, isPlain d = true := all_eq_true.mp hrest
  have hword : ∀ d ∈ rest, isWordChar d = true := by
    intro d hd
    simp [isWordChar, hplain d hd]
  have hbehindWord : ∀ d ∈ behind.head?, isWordChar d = false :=
    fun d hd => (hbehind d hd).1
  have hbehindPlain : ∀ d ∈ behind.head?, isPlain d = false := by
    intro d hd
    have hd := hbehindWord d hd
    simp only [isWordChar, or_eq_false_iff] at hd
    exact hd.1.1
  have hlex : lexWord c (rest ++ behind) = (.word (c :: rest), behind) := by
    rw [lexWord_word]
    · rw [takeWhile_append_of_pos hword, dropWhile_append_of_pos hword,
        takeWhile_of_head hbehindWord, dropWhile_of_head hbehindWord, append_nil]
    · intro d later hperiod
      rw [dropWhile_append_of_pos hplain, dropWhile_of_head hbehindPlain] at hperiod
      exact absurd rfl (hbehind '.' (by rw [hperiod]; rfl)).2.1
  rw [cons_append, cons_append, lex_space]
  apply lex_of_some
  simp [lexItem, hspace, hc, hlex]

/-- The symbols of the text. -/
theorem lex_symbol (hc : c ∈ ['(', ')', ',', ';'])
    (rest : List Char) : lex (c :: rest) = .symbol [c] :: lex rest := by
  have hitem : lexItem c rest = some ([.symbol [c]], rest) := by
    simp only [mem_cons, not_mem_nil, or_false] at hc
    rcases hc with rfl | rfl | rfl | rfl <;> cases rest <;> rfl
  rw [lex_of_some hitem, singleton_append]

theorem lexes_literal (value : List Char) :
    Lexes (' ' :: '"' :: doubled '"' value ++ ['"']) [.literal value] := by
  intro behind hbehind
  rw [cons_append, cons_append, cons_append, lex_space]
  apply lex_of_some
  have hread : readLiteral '"' (doubled '"' value ++ '"' :: behind) = some (value, behind) := by
    rw [readLiteral_eq_some_iff]
    exact ⟨rfl, fun hhead => (hbehind '"' hhead).2.2 rfl⟩
  simp [lexItem, isSpace, isWordStart, hread]

/-- What is read of a name in backquotes. -/
def unquoted (name : List Char) : List Char :=
  (name.takeWhile (· ≠ '\x60')).filter fun c => c ≠ '(' && c ≠ ')'

/-- The name is read as it was written. -/
def isCleanName (name : List Char) : Bool :=
  name.all fun c => c ≠ '\x60' && c ≠ '(' && c ≠ ')'

theorem exists_readQuoted (name behind : List Char) : ∃ rest,
    readQuoted (name ++ '\x60' :: behind) = some (unquoted name, rest) ∧
      (isCleanName name = true → rest = behind) := by
  induction name with
  | nil => exact ⟨behind, rfl, fun _ => rfl⟩
  | cons c name ih =>
    obtain ⟨rest, hread, hclean⟩ := ih
    rw [cons_append, readQuoted]
    by_cases hquote : c = '\x60'
    · subst hquote
      exact ⟨_, rfl, by simp [isCleanName]⟩
    · rw [if_neg hquote]
      by_cases hparen : c = '(' ∨ c = ')'
      · rcases hparen with rfl | rfl <;>
          exact ⟨rest, by simp [hread, unquoted], by simp [isCleanName]⟩
      · obtain ⟨hopen, hclose⟩ := not_or.mp hparen
        refine ⟨rest, ?_, ?_⟩
        · simp [hread, unquoted, hquote, hopen, hclose]
        · intro hname
          simp only [isCleanName, all_cons, and_eq_true] at hname
          exact hclean hname.2

theorem unquoted_eq_self {name : List Char} (hname : isCleanName name = true) :
    unquoted name = name := by
  simp only [isCleanName, List.all_eq_true, and_eq_true] at hname
  rw [unquoted, takeWhile_eq_self_iff.mpr, filter_eq_self.mpr]
  · intro c hc
    rw [and_eq_true]
    exact ⟨(hname c hc).1.2, (hname c hc).2⟩
  · exact fun c hc => (hname c hc).1.1

theorem isCleanName_unquoted (name : List Char) : isCleanName (unquoted name) = true := by
  simp only [isCleanName, List.all_eq_true]
  intro c hc
  obtain ⟨hmem, hparen⟩ := mem_filter.mp hc
  have hquote := mem_takeWhile_imp hmem
  rw [and_eq_true] at hparen
  rw [and_eq_true, and_eq_true]
  exact ⟨⟨hquote, hparen.1⟩, hparen.2⟩

theorem exists_lex_quotedName (name behind : List Char) : ∃ rest,
    lex (quotedName name ++ behind) = .quoted (unquoted name) :: lex rest ∧
      (isCleanName name = true → rest = behind) := by
  obtain ⟨rest, hread, hclean⟩ := exists_readQuoted name behind
  refine ⟨rest, ?_, hclean⟩
  have htext : quotedName name ++ behind = '\x60' :: (name ++ '\x60' :: behind) := by
    simp [quotedName]
  have hitem : lexItem '\x60' (name ++ '\x60' :: behind) =
      some ([.quoted (unquoted name)], rest) := by
    simp [lexItem, isSpace, isWordStart, hread]
  rw [htext, lex_of_some hitem, singleton_append]

end Pieces

section Escaped

theorem byteSize_cons (c : Char) (rest : List Char) :
    byteSize (c :: rest) = c.utf8Size + byteSize rest := by
  simp [byteSize]

theorem doubled_cons (c : Char) (rest : List Char) : doubled '"' (c :: rest) =
      (if c = '"' then [c, c] else [c]) ++ doubled '"' rest := by
  simp [doubled]

theorem byteSize_singleton (c : Char) : byteSize [c] = c.utf8Size := by
  simp [byteSize]

theorem mEscapeString2_eq (size i : ℕ) (string : List Char) : mEscapeString2 size i string =
      if i + byteSize (doubled '"' string) < size then
        some (doubled '"' string)
      else none := by
  induction string generalizing i with
  | nil => simp [mEscapeString2, doubled, byteSize]
  | cons c rest ih =>
    rw [mEscapeString2, doubled_cons, byteSize_append]
    by_cases hroom : i < size
    · rw [if_pos hroom]
      by_cases hquote : c = '"'
      · subst hquote
        have htwo : byteSize ['"', '"'] = 2 := rfl
        rw [if_pos rfl, if_pos rfl, ih, htwo, Nat.add_assoc]
        split_ifs <;> rfl
      · rw [if_neg hquote, if_neg hquote, ih, byteSize_singleton, Nat.add_assoc]
        split_ifs <;> rfl
    · rw [if_neg hroom, if_neg]
      omega

theorem byteSize_le_doubled (string : List Char) :
    byteSize string ≤ byteSize (doubled '"' string) := by
  induction string with
  | nil => exact Nat.le_refl _
  | cons c rest ih =>
    rw [doubled_cons, byteSize_append, byteSize_cons]
    split_ifs
    · rw [byteSize_cons]
      omega
    · rw [byteSize_singleton]
      omega

/-- A keyword with its literal, whatever its length. -/
def valueString (keyword : String) (string : List Char) : List Char :=
  ' ' :: keyword.toList ++ (' ' :: '"' :: doubled '"' string ++ ['"'])

theorem valueText_some (keyword : String) (string : List Char) : valueText keyword (some string) =
      if byteSize (doubled '"' string) < maxStrConst then
        some (valueString keyword string)
      else none := by
  simp only [valueText, mEscapeString2_eq, Nat.zero_add, bind_eq_bind, bind_some]
  split_ifs
  · simp [valueString]
  · rfl

/-- The loop of `m_escape_string2` on bytes, in a buffer of any length: what is
written, and what is left of the string. -/
def escapeLoop (bufferLen : ℤ) : ℕ → List Char → List Char × List Char
  | _, [] => ([], [])
  | i, c :: rest =>
    if i < bufferLen then
      let now := if c = '"' then [c, c] else [c]
      let later := escapeLoop bufferLen (i + now.length) rest
      (now ++ later.1, later.2)
    else ([], c :: rest)

/-- The rules for a string between double quotes, of a text that is nothing else.
The string and a NUL have to fit into the buffer of the lexer. -/
def lexDoubleQuoted : List Char → Option (List Char)
  | '"' :: rest =>
    match readLiteral '"' rest with
    | some (value, []) => if value.length < maxStrConst then some value else none
    | _ => none
  | _ => none

theorem escapeLoop_spec (bufferLen : ℤ) (i : ℕ) (string : List Char) :
    let out := escapeLoop bufferLen i string
    out.1.length ≤ (doubled '"' string).length ∧ (out.2 = [] → out.1 = doubled '"' string) ∧
      (out.2 ≠ [] → bufferLen ≤ i + out.1.length) := by
  induction string generalizing i with
  | nil => simp [escapeLoop, doubled]
  | cons c rest ih =>
    by_cases hroom : i < bufferLen
    · obtain ⟨hle, hall, hfull⟩ := ih (i + (if c = '"' then [c, c] else [c]).length)
      simp only [escapeLoop, if_pos hroom, doubled_cons, length_append]
      refine ⟨by omega, fun hnil => by rw [hall hnil], fun hne => ?_⟩
      have := hfull hne
      omega
    · simp only [escapeLoop, if_neg hroom]
      exact ⟨Nat.zero_le _, by simp, fun _ => by simpa using hroom⟩

/-- The buffer is kept to, and what is written is read back, exactly if the string
fits into it with its quotes doubled and into the buffer of the lexer without. -/
theorem escaped_string_is_read_back_iff (bufferLen : ℤ) (string : List Char) :
    ((escapeLoop bufferLen 0 string).1.length + 1 ≤ bufferLen ∧
      ((escapeLoop bufferLen 0 string).2 = [] →
        lexDoubleQuoted ('"' :: (escapeLoop bufferLen 0 string).1 ++ ['"']) = some string)) ↔
      (doubled '"' string).length < bufferLen ∧ string.length < maxStrConst := by
  obtain ⟨hle, hall, hfull⟩ := escapeLoop_spec bufferLen 0 string
  by_cases hnil : (escapeLoop bufferLen 0 string).2 = []
  · have hread : readLiteral '"' (doubled '"' string ++ ['"']) = some (string, []) :=
      readLiteral_eq_some_iff.mpr ⟨rfl, nofun⟩
    rw [hall hnil, Int.add_one_le_iff]
    simp [hnil, lexDoubleQuoted, hread]
  · have := hfull hnil
    exact iff_of_false (by omega) (by omega)

/-- A quote at the end of a buffer of two bytes: four are written. -/
theorem quote_passes_buffer : escapeLoop 2 0 ['a', '"'] = (['a', '"', '"'], []) ∧
    ¬(escapeLoop 2 0 ['a', '"']).1.length + 1 ≤ (2 : ℤ) := by
  decide

end Escaped

section Keywords

def words (texts : List String) : List Token :=
  texts.map fun text => .word text.toList

def isColumnKeyword (k : ColumnKeyword) : Bool :=
  match k.keyword with
  | .primaryKey | .notNull | .uniqueConstraint => k.value.isNone
  | .optionalExtract | .optionalPiece | .optionalSource | .optionalDelim
  | .optionalKeyNum | .optionalAdvance | .optionalStart | .optionalEnd =>
    k.value.isSome
  | _ => false

/-- The text of a keyword, whatever its length. -/
def keywordString (k : ColumnKeyword) : List Char :=
  match k.keyword with
  | .primaryKey => " PRIMARY KEY".toList
  | .notNull => " NOT NULL".toList
  | .uniqueConstraint => " UNIQUE".toList
  | .optionalExtract => valueString "EXTRACT" (k.value.getD [])
  | .optionalPiece => valueString "PIECE" (k.value.getD [])
  | .optionalSource => valueString "GLOBAL" (k.value.getD [])
  | .optionalDelim => valueString "GLOBAL" (k.value.getD [])
  | .optionalKeyNum => valueString "KEY NUM" (k.value.getD [])
  | .optionalAdvance => valueString "ADVANCE" (k.value.getD [])
  | .optionalStart => valueString "START" (k.value.getD [])
  | .optionalEnd => valueString "END" (k.value.getD [])
  | _ => []

def keywordTokens (k : ColumnKeyword) : List Token :=
  match k.keyword with
  | .primaryKey => words ["PRIMARY", "KEY"]
  | .notNull => words ["NOT", "NULL"]
  | .uniqueConstraint => words ["UNIQUE"]
  | .optionalExtract => words ["EXTRACT"] ++ [.literal (k.value.getD [])]
  | .optionalPiece => words ["PIECE"] ++ [.literal (k.value.getD [])]
  | .optionalSource => words ["GLOBAL"] ++ [.literal (k.value.getD [])]
  | .optionalDelim => words ["GLOBAL"] ++ [.literal (k.value.getD [])]
  | .optionalKeyNum => words ["KEY", "NUM"] ++ [.literal (k.value.getD [])]
  | .optionalAdvance => words ["ADVANCE"] ++ [.literal (k.value.getD [])]
  | .optionalStart => words ["START"] ++ [.literal (k.value.getD [])]
  | .optionalEnd => words ["END"] ++ [.literal (k.value.getD [])]
  | _ => []

/-- The keyword that is read again: GLOBAL for DELIM. -/
def printedKeyword (k : ColumnKeyword) : ColumnKeyword :=
  if k.keyword = .optionalDelim then { k with keyword := .optionalSource }
  else k

variable {k : ColumnKeyword}

theorem separated_space (rest : List Char) : Separated (' ' :: rest) :=
  separated_cons ⟨rfl, by decide, by decide⟩

def isLetters (text : String) : Bool :=
  match text.toList with
  | c :: rest => isWordStart c && !isSpace c && rest.all isPlain
  | [] => false

/-- Words with blanks before them. -/
theorem lexes_words (texts : List String) (htexts : texts.all isLetters = true) :
    Lexes (texts.flatMap fun text => ' ' :: text.toList) (words texts) := by
  induction texts with
  | nil => exact fun _ _ => rfl
  | cons text texts ih =>
    rw [all_cons, and_eq_true] at htexts
    obtain ⟨htext, htexts⟩ := htexts
    have hword : Lexes (' ' :: text.toList) [.word text.toList] := by
      unfold isLetters at htext
      split at htext
      · rename_i c rest hletters
        simp only [and_eq_true, not_eq_true'] at htext
        rw [hletters]
        exact lexes_word htext.1.1 htext.1.2 htext.2
      · cases htext
    refine hword.append (ih htexts) ?_
    intro behind hbehind
    cases texts with
    | nil => exact hbehind
    | cons other texts => exact separated_space _

/-- A keyword and its literal. -/
theorem lexes_valueString {keyword : String} (texts : List String)
    (htexts : texts.all isLetters = true)
    (hkeyword : ' ' :: keyword.toList =
      texts.flatMap fun text => ' ' :: text.toList) (string : List Char) :
    Lexes (valueString keyword string) (words texts ++ [.literal string]) := by
  rw [valueString, hkeyword]
  exact (lexes_words texts htexts).append (lexes_literal string) fun _ _ => separated_space _

theorem lexes_keywordString (k : ColumnKeyword) : Lexes (keywordString k) (keywordTokens k) := by
  obtain ⟨keyword, value⟩ := k
  cases keyword
  case primaryKey => exact lexes_words ["PRIMARY", "KEY"] rfl
  case notNull => exact lexes_words ["NOT", "NULL"] rfl
  case uniqueConstraint => exact lexes_words ["UNIQUE"] rfl
  case optionalKeyNum => exact lexes_valueString ["KEY", "NUM"] rfl rfl _
  case optionalExtract => exact lexes_valueString ["EXTRACT"] rfl rfl _
  case optionalPiece => exact lexes_valueString ["PIECE"] rfl rfl _
  case optionalSource => exact lexes_valueString ["GLOBAL"] rfl rfl _
  case optionalDelim => exact lexes_valueString ["GLOBAL"] rfl rfl _
  case optionalAdvance => exact lexes_valueString ["ADVANCE"] rfl rfl _
  case optionalStart => exact lexes_valueString ["START"] rfl rfl _
  case optionalEnd => exact lexes_valueString ["END"] rfl rfl _
  all_goals exact fun _ _ => rfl

/-- It begins with a blank, if it is not empty. -/
theorem separated_keywordString (k : ColumnKeyword) {behind : List Char}
    (hbehind : Separated behind) : Separated (keywordString k ++ behind) := by
  obtain ⟨keyword, value⟩ := k
  cases keyword <;> first | exact hbehind | exact separated_space _

theorem keywordText_eq (hk : isColumnKeyword k = true) : keywordText k =
      if byteSize (doubled '"' (k.value.getD [])) < maxStrConst then
        some (keywordString k)
      else none := by
  obtain ⟨keyword, value⟩ := k
  cases value with
  | none => cases keyword <;> first | rfl | cases hk
  | some string =>
    cases keyword <;> first | exact valueText_some _ string | cases hk

section Reading

variable {tokens : List Token}

theorem columnDefinitionTail_value {first : Token} {keyword : TableStatement.OptionalKeyword}
    (hfirst : valueKeyword first = some keyword) (value : List Char) :
    columnDefinitionTail (first :: .literal value :: tokens) =
    (columnDefinitionTail tokens).map fun read =>
        (⟨keyword, some value⟩ :: read.1, read.2) := by
  rw [columnDefinitionTail.eq_def]
  simp only [hfirst, literalValue, map_eq_bind]
  rfl

theorem columnDefinitionTail_unique (htokens : tokens ≠ []) :
    columnDefinitionTail (words ["UNIQUE"] ++ tokens) =
      (columnDefinitionTail tokens).map fun read =>
        (⟨.uniqueConstraint, none⟩ :: read.1, read.2) := by
  obtain ⟨token, tokens, rfl⟩ := exists_cons_of_ne_nil htokens
  rw [map_eq_bind]
  cases tokens <;> rfl

/-- Reading the tokens of a keyword. -/
theorem columnDefinitionTail_keyword (hk : isColumnKeyword k = true) (htokens : tokens ≠ []) :
    columnDefinitionTail (keywordTokens k ++ tokens) = (columnDefinitionTail tokens).map fun read =>
        (printedKeyword k :: read.1, read.2) := by
  obtain ⟨keyword, value⟩ := k
  cases value with
  | none =>
    cases keyword
    case primaryKey =>
      rw [map_eq_bind]
      cases tokens <;> rfl
    case notNull =>
      rw [map_eq_bind]
      cases tokens <;> rfl
    case uniqueConstraint => exact columnDefinitionTail_unique htokens
    all_goals cases hk
  | some value =>
    cases keyword
    case optionalKeyNum =>
      rw [map_eq_bind]
      rfl
    case optionalExtract => exact columnDefinitionTail_value rfl value
    case optionalPiece => exact columnDefinitionTail_value rfl value
    case optionalSource => exact columnDefinitionTail_value rfl value
    case optionalDelim => exact columnDefinitionTail_value rfl value
    case optionalAdvance => exact columnDefinitionTail_value rfl value
    case optionalStart => exact columnDefinitionTail_value rfl value
    case optionalEnd => exact columnDefinitionTail_value rfl value
    all_goals cases hk

/-- Reading all keywords of a column, up to a comma or a parenthesis. -/
theorem columnDefinitionTail_keywords {keywords : List ColumnKeyword}
    (hkeywords : ∀ k ∈ keywords, isColumnKeyword k = true) (c : Char) (tokens : List Token) :
    columnDefinitionTail (keywords.flatMap keywordTokens ++ .symbol [c] :: tokens) =
    some (keywords.map printedKeyword, .symbol [c] :: tokens) := by
  induction keywords with
  | nil =>
    rcases tokens with _ | ⟨token, _ | ⟨other, tokens⟩⟩ <;> rfl
  | cons k keywords ih =>
    rw [forall_mem_cons] at hkeywords
    rw [flatMap_cons, append_assoc,
      columnDefinitionTail_keyword hkeywords.1 (by simp), ih hkeywords.2]
    rfl

end Reading

end Keywords

end Octo
