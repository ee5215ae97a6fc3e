/-
CREATE TABLE.  The grammar of table definitions, the PIECE that
`assign_table_to_columns` gives to every column and the GLOBAL and DELIM that
`create_table_defaults` adds.  Lists of keywords are kept without the
NO_KEYWORD that the parser puts into each of them.
-/
import Octo.BindText
import Octo.StringLiteral

namespace Octo

open MessageBytes MValue SqlLexer

/-- A keyword of a column, with the text of its literal if it has one. -/
structure ColumnKeyword where
  keyword : TableStatement.OptionalKeyword
  value : Option (List Char)
deriving DecidableEq

structure ColumnDefinition where
  name : List Char
  type : TableStatement.DataType
  keywords : List ColumnKeyword
deriving DecidableEq

structure TableDefinition where
  name : List Char
  columns : List ColumnDefinition
  source : List Char
  delim : List Char
deriving DecidableEq

section Grammar

def reservedWords : List String :=
  ["ADVANCE", "ALL", "AND", "AS", "ASC", "AVG", "BEG", "BY", "CASCADE", "CASE", "CHAR", "CHARACTER",
    "COLLATE", "COMMAND", "COMMIT", "CORRESPONDING", "COUNT", "CREATE", "CROSS", "CURSOR", "DEC",
    "DECIMAL", "DEFAULT", "DELETE", "DELIM", "DESC", "DISTINCT", "DROP", "ELSE", "END", "EXCEPT",
    "EXTRACT", "FROM", "FULL", "GLOBAL", "GROUP", "HAVING", "IDENTIFIER_START", "IN", "INNER",
    "INSERT", "INT", "INTEGER", "INTERSECT", "INTO", "IS", "JOIN", "KEY", "LEFT", "LIKE", "LIMIT",
    "MAX", "MIN", "NATURAL", "NOT", "NUM", "NUMERIC", "ON", "OR", "ORDER", "OUTER", "OVER", "PACK",
    "PARTITION", "PIECE", "PRIMARY", "RESTRICT", "RIGHT", "SELECT", "SET", "SHOW", "SMALLINT",
    "START", "SUM", "TABLE", "THEN", "TO", "UNION", "UNIQUE", "UNKNOWN", "UNPACK", "UPDATE",
    "USING", "VALUES", "VARCHAR", "VARYING", "WHEN", "WHERE", "NULL", "FALSE", "TRUE"]

def toUpper (text : List Char) : List Char :=
  text.map Char.toUpper

/-- The token of a reserved word, in letters of any case. -/
def isKeyword (keyword : String) : Token → Bool
  | .word text => toUpper text = keyword.toList
  | _ => false

def isSymbol (c : Char) : Token → Bool
  | .symbol text => text = [c]
  | _ => false

def literalValue : Token → Option (List Char)
  | .literal value => some value
  | .number text => some text
  | _ => none

def identifier : Token → Option (List Char)
  | .word text =>
    if toUpper text ∈ reservedWords.map String.toList then none
    else some (toUpper text)
  | .qualified text => some (toUpper text)
  | .quoted value => some (toUpper value)
  | _ => none

/-- `column_name`: an identifier, or two literals with a period between
them. -/
def readColumnName : List Token → Option (List Char × List Token)
  | first :: rest =>
    match identifier first with
    | some name => some (name, rest)
    | none =>
      match rest with
      | second :: third :: rest => do
        let tableName ← literalValue first
        let columnName ← literalValue third
        if isSymbol '.' second then
          some (toUpper tableName ++ '.' :: toUpper columnName, rest)
        else none
      | _ => none
  | [] => none

/-- `LEFT_PAREN length RIGHT_PAREN`, or nothing. -/
def readLength : List Token → Option (List Token)
  | first :: rest =>
    if isSymbol '(' first then
      match rest with
      | second :: third :: rest => do
        let _ ← literalValue second
        if isSymbol ')' third then some rest else none
      | _ => none
    else some (first :: rest)
  | [] => some []

/-- `exact_numeric_type_tail` -/
def readPrecision : List Token → Option (List Token)
  | first :: second :: third :: fourth :: fifth :: rest =>
    if isSymbol '(' first && isSymbol ',' third then do
      let _ ← literalValue second
      let _ ← literalValue fourth
      if isSymbol ')' fifth then some rest else none
    else readLength (first :: second :: third :: fourth :: fifth :: rest)
  | tokens => readLength tokens

def readDataType : List Token → Option (TableStatement.DataType × List Token)
  | first :: rest =>
    if isKeyword "CHARACTER" first || isKeyword "CHAR" first then
      match rest with
      | second :: behind =>
        if isKeyword "VARYING" second then
          (readLength behind).map (.characterStringType, ·)
        else (readLength rest).map (.characterStringType, ·)
      | [] => none
    else if isKeyword "VARCHAR" first then
      (readLength rest).map (.characterStringType, ·)
    else if isKeyword "NUMERIC" first || isKeyword "DECIMAL" first || isKeyword "DEC" first then
      (readPrecision rest).map (.integerType, ·)
    else if isKeyword "INTEGER" first || isKeyword "INT" first || isKeyword "SMALLINT" first then
      some (.integerType, rest)
    else none
  | [] => none

/-- The keywords of a column with one literal behind them. -/
def valueKeyword (token : Token) : Option TableStatement.OptionalKeyword :=
  if isKeyword "EXTRACT" token then some .optionalExtract
  else if isKeyword "PIECE" token then some .optionalPiece
  else if isKeyword "DELIM" token then some .optionalDelim
  else if isKeyword "GLOBAL" token then some .optionalSource
  else if isKeyword "ADVANCE" token then some .optionalAdvance
  else if isKeyword "START" token then some .optionalStart
  else if isKeyword "END" token then some .optionalEnd
  else none

/-- `column_definition_tail`, which ends where no keyword begins. -/
def columnDefinitionTail : List Token → Option (List ColumnKeyword × List Token)
  | first :: second :: rest =>
    match valueKeyword first with
    | some keyword => do
      let value ← literalValue second
      let (others, behind) ← columnDefinitionTail rest
      some (⟨keyword, some value⟩ :: others, behind)
    | none =>
      if isKeyword "KEY" first then
        match rest with
        | third :: rest => do
          let value ← literalValue third
          if isKeyword "NUM" second then
            let (others, behind) ← columnDefinitionTail rest
            some (⟨.optionalKeyNum, some value⟩ :: others, behind)
          else none
        | [] => none
      else if isKeyword "NOT" first then
        if isKeyword "NULL" second then do
          let (others, behind) ← columnDefinitionTail rest
          some (⟨.notNull, none⟩ :: others, behind)
        else none
      else if isKeyword "PRIMARY" first then
        if isKeyword "KEY" second then do
          let (others, behind) ← columnDefinitionTail rest
          some (⟨.primaryKey, none⟩ :: others, behind)
        else none
      else if isKeyword "UNIQUE" first then do
        let (others, behind) ← columnDefinitionTail (second :: rest)
        some (⟨.uniqueConstraint, none⟩ :: others, behind)
      else some ([], first :: second :: rest)
  | tokens => some ([], tokens)

def readColumnDefinition (tokens : List Token) : Option (ColumnDefinition × List Token) := do
  let (name, tokens) ← readColumnName tokens
  let (type, tokens) ← readDataType tokens
  let (keywords, tokens) ← columnDefinitionTail tokens
  some (⟨name, type, keywords⟩, tokens)

/-- `table_element_list`, of at most so many columns. -/
def tableElementList : ℕ → List Token → Option (List ColumnDefinition × List Token)
  | 0, _ => none
  | fuel + 1, tokens => do
    let (column, tokens) ← readColumnDefinition tokens
    match tokens with
    | token :: rest =>
      if isSymbol ',' token then
        let (columns, behind) ← tableElementList fuel rest
        some (column :: columns, behind)
      else some ([column], token :: rest)
    | [] => some ([column], [])

def tableDefinitionTail : List Token → Option (List ColumnKeyword × List Token)
  | first :: rest =>
    if isKeyword "GLOBAL" first || isKeyword "DELIM" first then
      match rest with
      | second :: rest => do
        let value ← literalValue second
        let (others, behind) ← tableDefinitionTail rest
        let keyword : TableStatement.OptionalKeyword :=
          if isKeyword "GLOBAL" first then .optionalSource
          else .optionalDelim
        some (⟨keyword, some value⟩ :: others, behind)
      | [] => none
    else some ([], first :: rest)
  | [] => some ([], [])

/-- `semicolon_or_eof` -/
def endsStatement : List Token → Bool
  | token :: _ => isSymbol ';' token
  | [] => true

/-- The lexer takes it for a parameter. -/
def isParameter : Token → Bool
  | .word text => text.head? = some '$'
  | _ => false

/-- `table_definition` up to the end of the statement: the name, the columns
and the keywords of the table.  A name that is a parameter fails an
assertion. -/
def readTableDefinition : List Token →
    Option (List Char × List ColumnDefinition × List ColumnKeyword)
  | first :: second :: tokens => do
    if isKeyword "CREATE" first && isKeyword "TABLE" second && !tokens.head?.any isParameter then
      let (name, tokens) ← readColumnName tokens
      match tokens with
      | token :: tokens =>
        if isSymbol '(' token then
          let (columns, tokens) ← tableElementList tokens.length tokens
          match tokens with
          | token :: tokens =>
            if isSymbol ')' token then
              let (keywords, tokens) ← tableDefinitionTail tokens
              if endsStatement tokens then some (name, columns, keywords)
              else none
            else none
          | [] => none
        else none
      | [] => none
    else none
  | _ => none

end Grammar
section Defaults

def getKeyword (keyword : TableStatement.OptionalKeyword)
    (column : ColumnDefinition) : Option ColumnKeyword :=
  column.keywords.find? (·.keyword = keyword)

/-- One round of `assign_table_to_columns`: the i-th column gets the PIECE i if
it has none. -/
def assignPiece (i : ℕ) (column : ColumnDefinition) : ColumnDefinition :=
  if (getKeyword .optionalPiece column).isSome then column
  else
    { column with
      keywords := column.keywords ++ [⟨.optionalPiece, some (toString i).toList⟩] }

def assignTableToColumns (columns : List ColumnDefinition) : List ColumnDefinition :=
  columns.mapIdx fun i column => assignPiece (i + 1) column

def maxKeyCount : ℕ := 255

def isBlank (c : Char) : Bool :=
  c = ' ' || ('\t' ≤ c && c ≤ '\r')

/-- `atoi` of any text: blanks, a sign and digits. -/
def keyNumber (text : List Char) : ℤ :=
  match text.dropWhile isBlank with
  | '-' :: rest =>
    signed 4 (((-min (digitsValue (rest.takeWhile Char.isDigit)) (2 ^ 63) : ℤ) % 2 ^ 32).toNat)
  | '+' :: rest => atoi (rest.takeWhile Char.isDigit)
  | rest => atoi (rest.takeWhile Char.isDigit)

/-- `key_columns`, and the largest number so far. -/
structure KeyColumns where
  columns : ℕ → Option ColumnDefinition
  maxKey : ℤ

/-- The loop of `get_key_columns`.  A second column for a number ends it with
1; none for a number that the array does not have. -/
def getKeyColumns : KeyColumns → List ColumnDefinition → Option KeyColumns
  | keys, [] => some keys
  | keys, column :: rest =>
    if (getKeyword .primaryKey column).isSome ∧ (keys.columns 0).isSome then
      some { keys with maxKey := 1 }
    else
      let keys :=
        if (getKeyword .primaryKey column).isSome then
          ⟨Function.update keys.columns 0 (some column), 0⟩
        else keys
      match (getKeyword .optionalKeyNum column).bind ColumnKeyword.value with
      | none => getKeyColumns keys rest
      | some text =>
        if keyNumber text < 0 ∨ maxKeyCount ≤ keyNumber text then none
        else if (keys.columns (keyNumber text).toNat).isSome then
          some { keys with maxKey := 1 }
        else
          getKeyColumns ⟨Function.update keys.columns (keyNumber text).toNat
              (some column), max (keyNumber text) keys.maxKey⟩ rest

/-- `m_unescape_string`; none if a quote is not followed by another. -/
def mUnescapeString : List Char → Option (List Char)
  | '"' :: '"' :: rest => (mUnescapeString rest).map ('"' :: ·)
  | ['"'] => some []
  | '"' :: _ => none
  | c :: rest => (mUnescapeString rest).map (c :: ·)
  | [] => some []

/-- `generate_key_name`: what the buffer holds behind it.  Without a column it
is not written. -/
def generateKeyName (buffer : Option (List Char)) : Option ColumnDefinition → Option (List Char)
  | none => buffer
  | some column =>
    match (getKeyword .optionalExtract column).bind ColumnKeyword.value with
    | some text => mUnescapeString text
    | none => some ("keys(\"".toList ++ column.name ++ "\")".toList)

/-- The names of the keys from the i-th on, with commas between them. -/
def keyNames (keys : KeyColumns) (buffer : Option (List Char)) (i : ℕ) : ℕ → Option (List Char)
  | 0 => generateKeyName buffer (keys.columns i)
  | count + 1 => do
    let name ← generateKeyName buffer (keys.columns i)
    let others ← keyNames keys (some name) (i + 1) count
    some (name ++ ',' :: others)

/-- The GLOBAL of a table that is defined without one; none if it is longer
than the buffer, whose end the source does not check. -/
def defaultSource (name : List Char) (keys : KeyColumns) : Option (List Char) := do
  let names ← keyNames keys none 0 keys.maxKey.toNat
  let source := '^' :: name ++ '(' :: names ++ [')']
  if byteSize source < maxStrConst then some source else none

def keywordValues (keyword : TableStatement.OptionalKeyword)
    (keywords : List ColumnKeyword) : List (List Char) :=
  keywords.filterMap fun k => if k.keyword = keyword then k.value else none

/-- The value of a keyword that the table has at most once. -/
def onlyValue (default : Option (List Char)) : List (List Char) → Option (List Char)
  | [] => default
  | [value] => some value
  | _ => none

/-- `create_table_defaults`; none without a key, or if the table has two
GLOBAL or two DELIM. -/
def createTableDefaults (name : List Char) (columns : List ColumnDefinition)
    (keywords : List ColumnKeyword) : Option TableDefinition := do
  let keys ← getKeyColumns ⟨fun _ => none, -1⟩ columns
  if keys.maxKey < 0 then none
  else
    let source ← onlyValue (defaultSource name keys) (keywordValues .optionalSource keywords)
    let delim ← onlyValue (some ['|']) (keywordValues .optionalDelim keywords)
    some ⟨name, columns, source, delim⟩

/-- The text that is copied into `string_buffer`. -/
def tokenText : Token → List Char
  | .word text | .qualified text | .number text | .symbol text => text
  | .literal value | .quoted value => value

/-- The tokens of a text; none if one of them does not fit into
`string_buffer`. -/
def readTokens (text : List Char) : Option (List Token) :=
  if (lex text).all fun token => byteSize (tokenText token) < maxStrConst then
    some (lex text)
  else none

def parseCreateTable (text : List Char) : Option TableDefinition := do
  let tokens ← readTokens text
  let (name, columns, keywords) ← readTableDefinition tokens
  createTableDefaults name (assignTableToColumns columns) keywords

end Defaults

end Octo
