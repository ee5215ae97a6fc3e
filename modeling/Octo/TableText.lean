/-
Reading the text of a table definition again.  Literals come back as they were.
A name does if no backquote and no parenthesis is in it, and a keyword if it is
not DELIM; all that is written has to fit into buffers.
-/
import Octo.EmitTable

namespace Octo

open SqlLexer Option
open List hiding lex lex_nil

section Capitals

theorem isUpper_iff (c : Char) : c.isUpper = true ↔ 'A'.val ≤ c.val ∧ c.val ≤ 'Z'.val :=
  decide_eq_true_iff

theorem toUpper_eq_or_isUpper (c : Char) : c.toUpper = c ∨ c.toUpper.isUpper = true := by
  unfold Char.toUpper
  split
  · rename_i hlower
    right
    rw [isUpper_iff]
    have hleast : 97 ≤ c.val.toNat := UInt32.le_iff_toNat_le.mp hlower.1
    have hmost : c.val.toNat ≤ 122 := UInt32.le_iff_toNat_le.mp hlower.2
    have hval : (c.val + ('A'.val - 'a'.val)).toNat = c.val.toNat - 32 := by
      rw [UInt32.toNat_add]
      have : ('A'.val - 'a'.val).toNat = 2 ^ 32 - 32 := rfl
      omega
    rw [UInt32.le_iff_toNat_le, UInt32.le_iff_toNat_le, hval]
    have : 'A'.val.toNat = 65 := rfl
    have : 'Z'.val.toNat = 90 := rfl
    omega
  · exact .inl rfl

theorem toUpper_of_isUpper {c : Char} (hc : c.isUpper = true) : c.toUpper = c := by
  unfold Char.toUpper
  rw [dif_neg]
  rintro ⟨hlower, -⟩
  rw [isUpper_iff] at hc
  have := UInt32.le_iff_toNat_le.mp hlower
  have := UInt32.le_iff_toNat_le.mp hc.2
  have : 'a'.val.toNat = 97 := rfl
  have : 'Z'.val.toNat = 90 := rfl
  omega

theorem toUpper_toUpper (text : List Char) : toUpper (toUpper text) = toUpper text := by
  rw [toUpper, toUpper, List.map_map]
  apply map_congr_left
  intro c _
  rcases toUpper_eq_or_isUpper c with hsame | hupper
  · rw [Function.comp_apply, hsame, hsame]
  · exact toUpper_of_isUpper hupper

end Capitals

section Columns

structure ColumnDefinition.WellFormed (column : ColumnDefinition) : Prop where
  name : toUpper column.name = column.name
  type : column.type = .integerType ∨ column.type = .characterStringType
  keywords : ∀ k ∈ column.keywords, isColumnKeyword k = true
  piece : (getKeyword .optionalPiece column).isSome = true

def typeString : TableStatement.DataType → List Char
  | .integerType => " INTEGER".toList
  | _ => " VARCHAR(25)".toList

def typeTokens : TableStatement.DataType → List Token
  | .integerType => words ["INTEGER"]
  | _ => words ["VARCHAR"] ++ [.symbol ['('], .number ['2', '5'], .symbol [')']]

def columnBody (column : ColumnDefinition) : List Char :=
  typeString column.type ++ column.keywords.flatMap keywordString

/-- The specification of a column, whatever its length. -/
def columnText (column : ColumnDefinition) : List Char :=
  quotedName column.name ++ columnBody column

def bodyTokens (column : ColumnDefinition) : List Token :=
  typeTokens column.type ++ column.keywords.flatMap keywordTokens

def readBack (column : ColumnDefinition) : ColumnDefinition :=
  { column with keywords := column.keywords.map printedKeyword }

variable {column : ColumnDefinition}

theorem lexes_varchar : Lexes " VARCHAR(25)".toList (words ["VARCHAR"] ++
    [.symbol ['('], .number ['2', '5'], .symbol [')']]) := by
  intro behind hbehind
  have hword := lexes_words ["VARCHAR"] rfl ('(' :: '2' :: '5' :: ')' :: behind)
    (separated_cons ⟨rfl, by decide, by decide⟩)
  have hitem : lexItem '2' ('5' :: ')' :: behind) =
      some ([.number ['2', '5']], ')' :: behind) := rfl
  rw [lex_symbol (by decide), lex_of_some hitem, lex_symbol (by decide)] at hword
  exact hword

theorem lexes_typeString (type : TableStatement.DataType) :
    Lexes (typeString type) (typeTokens type) := by
  cases type <;> first | exact lexes_words ["INTEGER"] rfl | exact lexes_varchar

theorem lexes_keywords (keywords : List ColumnKeyword) :
    Lexes (keywords.flatMap keywordString) (keywords.flatMap keywordTokens) ∧
    ∀ behind, Separated behind → Separated (keywords.flatMap keywordString ++ behind) := by
  induction keywords with
  | nil => exact ⟨fun _ _ => rfl, fun _ hbehind => hbehind⟩
  | cons k keywords ih =>
    refine ⟨(lexes_keywordString k).append ih.1 ih.2, ?_⟩
    intro behind hbehind
    rw [flatMap_cons, append_assoc]
    exact separated_keywordString k (ih.2 behind hbehind)

theorem lexes_columnBody (column : ColumnDefinition) :
    Lexes (columnBody column) (bodyTokens column) :=
  (lexes_typeString column.type).append (lexes_keywords column.keywords).1
    (lexes_keywords column.keywords).2

theorem byteSize_value_le {k : ColumnKeyword} (hk : isColumnKeyword k = true) :
    byteSize (doubled '"' (k.value.getD [])) ≤ byteSize (keywordString k) := by
  have hvalue : ∀ keyword string,
      byteSize (doubled '"' string) ≤ byteSize (valueString keyword string) := by
    intro keyword string
    simp only [valueString, byteSize_append, byteSize_cons]
    omega
  obtain ⟨keyword, value⟩ := k
  cases value with
  | none => exact Nat.zero_le _
  | some string => cases keyword <;> first | exact hvalue _ string | cases hk

variable {keywords : List ColumnKeyword} {c : Char}

theorem byteSize_le_flatMap {k : ColumnKeyword} (hk : k ∈ keywords) :
    byteSize (keywordString k) ≤ byteSize (keywords.flatMap keywordString) := by
  obtain ⟨before, behind, rfl⟩ := append_of_mem hk
  simp only [flatMap_append, flatMap_cons, byteSize_append]
  omega

/-- The texts of the keywords, if each fits into its buffer. -/
theorem mapM_keywordText (hkeywords : ∀ k ∈ keywords, isColumnKeyword k = true) :
    keywords.mapM keywordText = if ∀ k ∈ keywords,
    byteSize (doubled '"' (k.value.getD [])) < maxStrConst then
        some (keywords.map keywordString)
      else none := by
  induction keywords with
  | nil => simp
  | cons k keywords ih =>
    rw [forall_mem_cons] at hkeywords
    simp only [mapM_cons, keywordText_eq hkeywords.1, ih hkeywords.2, forall_mem_cons]
    by_cases hk : byteSize (doubled '"' (k.value.getD [])) < maxStrConst
    · simp only [hk, if_true, true_and]
      split_ifs <;> rfl
    · simp [hk]

/-- `emit_column_specification` -/
theorem emitColumnSpecification_eq (hcolumn : column.WellFormed) : emitColumnSpecification column =
      if byteSize (columnText column) < maxStrConst then
        some (columnText column)
      else none := by
  have htype : typeText column.type = some (typeString column.type) := by
    rcases hcolumn.type with htype | htype <;> rw [htype] <;> rfl
  have htext : quotedName column.name ++ typeString column.type ++
      (column.keywords.map keywordString).flatten = columnText column := by
    rw [columnText, columnBody, append_assoc, flatMap_def]
  rw [emitColumnSpecification, htype, mapM_keywordText hcolumn.keywords]
  by_cases hvalues : ∀ k ∈ column.keywords, byteSize (doubled '"' (k.value.getD [])) < maxStrConst
  · simp only [if_pos hvalues, bind_eq_bind, bind_some, htext]
  · rw [if_neg hvalues, if_neg]
    · rfl
    · intro hsize
      refine hvalues fun k hk => ?_
      have hk' := byteSize_value_le (hcolumn.keywords k hk)
      have hle := byteSize_le_flatMap hk
      simp only [columnText, columnBody, byteSize_append] at hsize
      omega

theorem readDataType_typeTokens (hcolumn : column.WellFormed) (tokens : List Token) :
    readDataType (typeTokens column.type ++ tokens) = some (column.type, tokens) := by
  rcases hcolumn.type with htype | htype <;> rw [htype] <;> rfl

theorem separated_symbol (hc : c ∈ ['(', ')', ',', ';'])
    (behind : List Char) : Separated (c :: behind) := by
  simp only [mem_cons, not_mem_nil, or_false] at hc
  apply separated_cons
  rcases hc with rfl | rfl | rfl | rfl <;> decide

theorem lex_columnText (hname : isCleanName column.name = true) (hc : c ∈ ['(', ')', ',', ';'])
    (behind : List Char) : lex (columnText column ++ c :: behind) = .quoted column.name ::
    (bodyTokens column ++ .symbol [c] :: lex behind) := by
  obtain ⟨rest, hlex, hrest⟩ :=
    exists_lex_quotedName column.name (columnBody column ++ c :: behind)
  rw [columnText, append_assoc, hlex, hrest hname, unquoted_eq_self hname,
    lexes_columnBody column _ (separated_symbol hc behind), lex_symbol hc]

/-- A column with a clean name comes back. -/
theorem readColumnDefinition_clean (hcolumn : column.WellFormed)
    (hname : isCleanName column.name = true) (hc : c ∈ ['(', ')', ',', ';']) (behind : List Char) :
    readColumnDefinition (lex (columnText column ++ c :: behind)) =
    some (readBack column, .symbol [c] :: lex behind) := by
  rw [lex_columnText hname hc, bodyTokens, append_assoc]
  have hread : readColumnName (.quoted column.name :: (typeTokens column.type ++
      (column.keywords.flatMap keywordTokens ++ .symbol [c] :: lex behind))) =
      some (column.name, _) := congrArg (fun name => some (name, _)) hcolumn.name
  simp only [readColumnDefinition, hread, bind_eq_bind, bind_some,
    readDataType_typeTokens hcolumn, columnDefinitionTail_keywords hcolumn.keywords]
  rfl

/-- The name of a column that is read at its place. -/
theorem name_of_readColumnDefinition {behind : List Char} {read : ColumnDefinition}
    {tokens : List Token} (hread : readColumnDefinition (lex (columnText column ++ behind)) =
    some (read, tokens)) : read.name = toUpper (unquoted column.name) := by
  obtain ⟨rest, hlex, -⟩ :=
    exists_lex_quotedName column.name (columnBody column ++ behind)
  rw [columnText, append_assoc, hlex] at hread
  simp only [readColumnDefinition, readColumnName, identifier,
    bind_eq_bind, bind_some, bind_eq_some_iff] at hread
  obtain ⟨_, _, _, _, hread⟩ := hread
  obtain ⟨rfl, -⟩ := Prod.mk.inj (some.inj hread)
  rfl

/-- Capitals have no backquotes and parentheses that the letters did not
have. -/
theorem isCleanName_toUpper {name : List Char}
    (hname : isCleanName name = true) : isCleanName (toUpper name) = true := by
  simp only [isCleanName, toUpper, List.all_map, List.all_eq_true,
    Function.comp_apply, Bool.and_eq_true, decide_eq_true_eq] at hname ⊢
  intro c hc
  rcases toUpper_eq_or_isUpper c with hsame | hupper
  · rw [hsame]
    exact hname c hc
  · refine ⟨⟨?_, ?_⟩, ?_⟩
    all_goals
      intro heq
      rw [heq] at hupper
      cases hupper

theorem isCleanName_of_read {name : List Char}
    (hname : toUpper (unquoted name) = name) : isCleanName name = true := by
  rw [← hname]
  exact isCleanName_toUpper (isCleanName_unquoted name)

theorem getKeyword_piece_readBack (hcolumn : column.WellFormed) :
    (getKeyword .optionalPiece (readBack column)).isSome = true := by
  have hpiece := hcolumn.piece
  simp only [getKeyword, readBack, find?_isSome, decide_eq_true_eq] at hpiece ⊢
  obtain ⟨k, hk, hkeyword⟩ := hpiece
  refine ⟨printedKeyword k, mem_map_of_mem hk, ?_⟩
  rw [printedKeyword, if_neg (by simp [hkeyword]), hkeyword]

theorem readBack_eq_self_iff : readBack column = column ↔
    column.keywords.all (·.keyword ≠ .optionalDelim) = true := by
  have hkeywords : readBack column = column ↔
      column.keywords.map printedKeyword = column.keywords := by
    cases column
    simp [readBack]
  have hid : column.keywords.map printedKeyword = column.keywords ↔
      column.keywords.map printedKeyword = column.keywords.map id := by
    rw [List.map_id]
  rw [hkeywords, hid, map_inj_left]
  simp only [List.all_eq_true, decide_eq_true_eq]
  refine forall₂_congr fun k hk => ?_
  unfold printedKeyword
  split_ifs with hdelim
  · simp only [hdelim, ne_eq, not_true_eq_false, iff_false]
    intro heq
    rw [id_eq] at heq
    rw [← heq] at hdelim
    cases hdelim
  · simp [hdelim]

end Columns

section Elements

variable {columns : List ColumnDefinition}

/-- The specifications of columns, whatever their length. -/
def columnsText : List ColumnDefinition → List Char
  | [] => []
  | [column] => columnText column
  | column :: columns => columnText column ++ ", ".toList ++ columnsText columns

theorem columnsText_cons (column other : ColumnDefinition) (behind : List Char) :
    columnsText (column :: other :: columns) ++ behind = columnText column ++
        ',' :: ' ' :: (columnsText (other :: columns) ++ behind) := by
  simp [columnsText]

theorem emitColumns_eq (hcolumns : ∀ c ∈ columns, c.WellFormed) : emitColumns columns =
      if ∀ c ∈ columns, byteSize (columnText c) < maxStrConst then
        some (columnsText columns)
      else none := by
  induction columns with
  | nil => simp [emitColumns, columnsText]
  | cons column columns ih =>
    rw [forall_mem_cons] at hcolumns
    cases columns with
    | nil =>
      rw [emitColumns, emitColumnSpecification_eq hcolumns.1]
      simp [columnsText]
    | cons other columns =>
      have ih := ih hcolumns.2
      rw [emitColumns, emitColumnSpecification_eq hcolumns.1, ih]
      · simp only [forall_mem_cons (a := column)]
        by_cases hsize : byteSize (columnText column) < maxStrConst
        · simp only [hsize, if_true, true_and]
          split_ifs <;> rfl
        · simp [hsize]
      · simp

section Reading

variable {fuel : ℕ} {tokens rest : List Token} {column : ColumnDefinition}

theorem tableElementList_last (hread : readColumnDefinition tokens =
      some (column, .symbol [')'] :: rest)) :
    tableElementList (fuel + 1) tokens = some ([column], .symbol [')'] :: rest) := by
  rw [tableElementList, hread]
  rfl

theorem tableElementList_comma (hread : readColumnDefinition tokens =
      some (column, .symbol [','] :: rest)) :
    tableElementList (fuel + 1) tokens = (tableElementList fuel rest).map fun read =>
        (column :: read.1, read.2) := by
  rw [tableElementList, hread, map_eq_bind]
  rfl

/-- The first column of a list is what is read at its beginning. -/
theorem exists_cons_of_tableElementList {read : List ColumnDefinition}
    (hread : tableElementList fuel tokens = some (read, rest)) :
    ∃ column others behind later, fuel = later + 1 ∧
    readColumnDefinition tokens = some (column, behind) ∧ read = column :: others := by
  cases fuel with
  | zero => cases hread
  | succ later =>
    obtain ⟨⟨column, behind⟩, hcolumn, hread⟩ :=
      bind_eq_some_iff.mp hread
    refine ⟨column, read.tail, behind, later, rfl, hcolumn, ?_⟩
    dsimp only at hread
    split at hread
    · split_ifs at hread
      · obtain ⟨others, -, hread⟩ := bind_eq_some_iff.mp hread
        obtain ⟨rfl, -⟩ := Prod.mk.inj (some.inj hread)
        rfl
      · obtain ⟨rfl, -⟩ := Prod.mk.inj (some.inj hread)
        rfl
    · obtain ⟨rfl, -⟩ := Prod.mk.inj (some.inj hread)
      rfl

end Reading

/-- Columns with clean names come back. -/
theorem tableElementList_clean (hcolumns : ∀ c ∈ columns, c.WellFormed)
    (hnames : ∀ c ∈ columns, isCleanName c.name = true) (hne : columns ≠ []) {fuel : ℕ}
    (hfuel : columns.length ≤ fuel) (behind : List Char) :
    tableElementList fuel (lex (columnsText columns ++ ')' :: behind)) =
    some (columns.map readBack, .symbol [')'] :: lex behind) := by
  induction columns generalizing fuel with
  | nil => exact absurd rfl hne
  | cons column columns ih =>
    obtain ⟨fuel, rfl⟩ := Nat.exists_eq_add_of_lt (Nat.lt_of_lt_of_le (Nat.succ_pos _) hfuel)
    rw [forall_mem_cons] at hcolumns hnames
    cases columns with
    | nil =>
      exact tableElementList_last (readColumnDefinition_clean hcolumns.1
        hnames.1 (by decide) behind)
    | cons other columns =>
      rw [columnsText_cons, tableElementList_comma
        (readColumnDefinition_clean hcolumns.1 hnames.1 (by decide) _),
        lex_space, ih hcolumns.2 hnames.2 (by simp) (by simp at hfuel ⊢; omega)]
      rfl

def columnsTokens : List ColumnDefinition → List Token
  | [] => []
  | [column] => .quoted column.name :: bodyTokens column
  | column :: columns =>
    .quoted column.name :: (bodyTokens column ++ .symbol [','] :: columnsTokens columns)

theorem lex_columnsText (hnames : ∀ c ∈ columns, isCleanName c.name = true) (hne : columns ≠ [])
    (behind : List Char) : lex (columnsText columns ++ ')' :: behind) =
    columnsTokens columns ++ .symbol [')'] :: lex behind := by
  induction columns with
  | nil => exact absurd rfl hne
  | cons column columns ih =>
    rw [forall_mem_cons] at hnames
    cases columns with
    | nil => exact lex_columnText hnames.1 (by decide) behind
    | cons other columns =>
      rw [columnsText_cons, lex_columnText hnames.1 (by decide), lex_space, ih hnames.2 (by simp)]
      simp [columnsTokens]

theorem length_le_columnsTokens (columns : List ColumnDefinition) :
    columns.length ≤ (columnsTokens columns).length := by
  fun_induction columnsTokens columns with
  | case1 => exact Nat.le_refl _
  | case2 column => simp
  | case3 column columns hmore ih =>
    simp only [length_cons, length_append]
    omega

theorem length_le_lex (hnames : ∀ c ∈ columns, isCleanName c.name = true)
    (hne : columns ≠ []) (behind : List Char) :
    columns.length ≤ (lex (columnsText columns ++ ')' :: behind)).length := by
  have hle := length_le_columnsTokens columns
  rw [lex_columnsText hnames hne, length_append]
  omega

/-- If the names come back they are clean. -/
theorem isCleanName_of_tableElementList (hcolumns : ∀ c ∈ columns, c.WellFormed) {fuel : ℕ}
    {behind : List Char} {read : List ColumnDefinition} {tokens : List Token}
    (hread : tableElementList fuel (lex (columnsText columns ++ ')' :: behind)) = some
    (read, tokens)) (hnames : read.map ColumnDefinition.name = columns.map ColumnDefinition.name) :
    ∀ c ∈ columns, isCleanName c.name = true := by
  induction columns generalizing fuel read with
  | nil => simp
  | cons column columns ih =>
    obtain ⟨first, others, rest, fuel, rfl, hfirst, rfl⟩ :=
      exists_cons_of_tableElementList hread
    rw [forall_mem_cons] at hcolumns ⊢
    rw [map_cons, map_cons, cons.injEq] at hnames
    cases columns with
    | nil =>
      have hname := name_of_readColumnDefinition hfirst
      rw [hnames.1] at hname
      exact ⟨isCleanName_of_read hname.symm, by simp⟩
    | cons other columns =>
      rw [columnsText_cons] at hread hfirst
      have hname := name_of_readColumnDefinition hfirst
      rw [hnames.1] at hname
      have hclean := isCleanName_of_read hname.symm
      rw [tableElementList_comma (readColumnDefinition_clean hcolumns.1
        hclean (by decide) _), lex_space] at hread
      obtain ⟨⟨later, tokens⟩, hlater, ⟨⟩⟩ :=
        map_eq_some_iff.mp hread
      exact ⟨hclean, ih hcolumns.2 hlater hnames.2⟩

end Elements

section Tables

structure TableDefinition.WellFormed (table : TableDefinition) : Prop where
  name : toUpper table.name = table.name
  nonempty : table.columns ≠ []
  columns : ∀ c ∈ table.columns, c.WellFormed
  keys : ∃ keys, getKeyColumns ⟨fun _ => none, -1⟩ table.columns = some keys ∧ 0 ≤ keys.maxKey

variable {table : TableDefinition}

def tailText (table : TableDefinition) : List Char :=
  valueString "GLOBAL" table.source ++ valueString "DELIM" table.delim ++ [';']

def tableText (table : TableDefinition) : List Char :=
  "CREATE TABLE ".toList ++ (quotedName table.name ++
    (" (".toList ++ (columnsText table.columns ++ ')' :: tailText table)))

def tailTokens (table : TableDefinition) : List Token :=
  words ["GLOBAL"] ++ [.literal table.source] ++
    (words ["DELIM"] ++ [.literal table.delim]) ++ [.symbol [';']]

/-- Everything fits into its buffer while the text is written. -/
def EmitFits (table : TableDefinition) : Prop :=
  (∀ c ∈ table.columns, byteSize (columnText c) < maxStrConst) ∧
    byteSize (doubled '"' table.source) < maxStrConst ∧
    byteSize (doubled '"' table.delim) < maxStrConst

theorem append_pieces (create name paren columns source delim : List Char) (c d : Char) :
    create ++ name ++ paren ++ columns ++ [c] ++ source ++ delim ++ [d] =
    create ++ (name ++ (paren ++ (columns ++ c :: (source ++ delim ++ [d])))) := by
  simp

theorem tableText_eq (table : TableDefinition) :
    "CREATE TABLE ".toList ++ quotedName table.name ++ " (".toList ++
      columnsText table.columns ++ [')'] ++ valueString "GLOBAL" table.source ++
      valueString "DELIM" table.delim ++ [';'] = tableText table := by
  exact append_pieces _ _ _ _ _ _ _ _

theorem emitCreateTable_eq_some_iff (htable : table.WellFormed) {text : List Char} :
    emitCreateTable table = some text ↔ EmitFits table ∧ text = tableText table := by
  rw [emitCreateTable]
  simp only [bind_some_iff, emitColumns_eq htable.columns,
    valueText_some, ite_none_right_eq_some, some.injEq]
  constructor
  · rintro ⟨_, ⟨hcolumns, rfl⟩, _, ⟨hsource, rfl⟩, _, ⟨hdelim, rfl⟩, rfl⟩
    exact ⟨⟨hcolumns, hsource, hdelim⟩, tableText_eq table⟩
  · rintro ⟨⟨hcolumns, hsource, hdelim⟩, rfl⟩
    exact ⟨_, ⟨hcolumns, rfl⟩, _, ⟨hsource, rfl⟩, _, ⟨hdelim, rfl⟩, tableText_eq table⟩

theorem lex_tailText (table : TableDefinition) : lex (tailText table) = tailTokens table := by
  have hsource : Lexes (valueString "GLOBAL" table.source) _ :=
    lexes_valueString ["GLOBAL"] rfl rfl table.source
  have hdelim : Lexes (valueString "DELIM" table.delim) _ :=
    lexes_valueString ["DELIM"] rfl rfl table.delim
  have hboth := hsource.append hdelim (fun _ _ => separated_space _) [';']
    (separated_cons ⟨rfl, by decide, by decide⟩)
  rw [lex_symbol (by decide), lex_nil] at hboth
  exact hboth

/-- The beginning of the text. -/
theorem lex_create (behind : List Char) : lex ("CREATE TABLE ".toList ++ behind) = words ["CREATE",
    "TABLE"] ++ lex behind := by
  have hwords := lexes_words ["CREATE", "TABLE"] rfl (' ' :: behind)
    (separated_space behind)
  rw [lex_space] at hwords
  rw [← hwords]
  exact (lex_space _).symm

variable {token : Token} {columns : List ColumnDefinition}

theorem isSymbol_iff {c : Char} : isSymbol c token = true ↔ token = .symbol [c] := by
  cases token <;> simp [isSymbol]

section Reading

variable {value : List Char} {tokens rest tail final : List Token}
  {columns : List ColumnDefinition} {keywords : List ColumnKeyword}

/-- The rest of a definition, behind the parenthesis that opens the columns. -/
def readTableRest (name : List Char) (tokens : List Token) :
    Option (List Char × List ColumnDefinition × List ColumnKeyword) :=
  (tableElementList tokens.length tokens).bind fun (columns, tokens) =>
    match tokens with
    | token :: tokens =>
      if isSymbol ')' token then
        (tableDefinitionTail tokens).bind fun (keywords, tokens) =>
          if endsStatement tokens then some (name, columns, keywords)
          else none
      else none
    | [] => none

theorem readTableDefinition_cons (value : List Char) (token : Token) (rest : List Token) :
    readTableDefinition (words ["CREATE", "TABLE"] ++ .quoted value :: token :: rest) =
      if isSymbol '(' token then readTableRest (toUpper value) rest
      else none := rfl

theorem readTableDefinition_of (helements : tableElementList rest.length rest =
      some (columns, .symbol [')'] :: tail))
    (htail : tableDefinitionTail tail = some (keywords, final))
    (hend : endsStatement final = true) :
    readTableDefinition (words ["CREATE", "TABLE"] ++ .quoted value :: .symbol ['('] :: rest) =
      some (toUpper value, columns, keywords) := by
  rw [readTableDefinition_cons, if_pos (isSymbol_iff.mpr rfl), readTableRest, helements]
  simp [isSymbol_iff.mpr, htail, hend]

/-- What is read behind CREATE TABLE and a name. -/
theorem of_readTableDefinition {name : List Char} (hread : readTableDefinition
      (words ["CREATE", "TABLE"] ++ .quoted value :: tokens) = some (name, columns, keywords)) :
    name = toUpper value ∧ ∃ rest behind, tokens = .symbol ['('] :: rest ∧
      tableElementList rest.length rest = some (columns, behind) := by
  cases tokens with
  | nil => cases hread
  | cons token rest =>
    rw [readTableDefinition_cons, ite_none_right_eq_some] at hread
    obtain ⟨hparen, hread⟩ := hread
    obtain ⟨⟨read, behind⟩, helements, hread⟩ :=
      bind_eq_some_iff.mp hread
    cases behind with
    | nil => cases hread
    | cons token behind =>
      rw [ite_none_right_eq_some] at hread
      obtain ⟨-, hread⟩ := hread
      obtain ⟨⟨keywords, final⟩, -, hread⟩ :=
        bind_eq_some_iff.mp hread
      rw [ite_none_right_eq_some] at hread
      cases hread.2
      exact ⟨rfl, rest, _, by rw [isSymbol_iff.mp hparen], helements⟩

end Reading

/-- The tokens of the text of a table. -/
theorem lex_tableText (hname : isCleanName table.name = true) :
    lex (tableText table) = words ["CREATE", "TABLE"] ++ .quoted table.name :: .symbol ['('] ::
    lex (columnsText table.columns ++ ')' :: tailText table) := by
  unfold tableText
  rw [lex_create]
  obtain ⟨rest, hlex, hrest⟩ := exists_lex_quotedName table.name
    (" (".toList ++ (columnsText table.columns ++ ')' :: tailText table))
  have hparen : lex (" (".toList ++ (columnsText table.columns ++ ')' :: tailText table)) =
      .symbol ['('] :: lex (columnsText table.columns ++ ')' :: tailText table) :=
    (lex_space _).trans (lex_symbol (by decide) _)
  rw [hlex, hrest hname, unquoted_eq_self hname, hparen]

/-- The name that is read first. -/
theorem exists_lex_tableText (table : TableDefinition) : ∃ tokens,
    lex (tableText table) = words ["CREATE", "TABLE"] ++
      .quoted (unquoted table.name) :: tokens := by
  unfold tableText
  rw [lex_create]
  obtain ⟨rest, hlex, -⟩ := exists_lex_quotedName table.name
    (" (".toList ++ (columnsText table.columns ++ ')' :: tailText table))
  exact ⟨lex rest, by rw [hlex]⟩

theorem createTableDefaults_of (htable : table.WellFormed) :
    createTableDefaults table.name table.columns [⟨.optionalSource, some table.source⟩,
    ⟨.optionalDelim, some table.delim⟩] = some table := by
  obtain ⟨keys, hkeys, hmax⟩ := htable.keys
  simp [createTableDefaults, hkeys, not_lt.mpr hmax, keywordValues, onlyValue]

theorem of_createTableDefaults {name : List Char} {keywords : List ColumnKeyword}
    (hdefaults : createTableDefaults name columns keywords = some table) :
    table.name = name ∧ table.columns = columns ∧
    ∃ keys, getKeyColumns ⟨fun _ => none, -1⟩ columns = some keys ∧ 0 ≤ keys.maxKey := by
  obtain ⟨keys, hkeys, hdefaults⟩ := bind_eq_some_iff.mp hdefaults
  split_ifs at hdefaults with hmax
  obtain ⟨source, -, hdefaults⟩ := bind_eq_some_iff.mp hdefaults
  obtain ⟨delim, -, ⟨⟩⟩ := bind_eq_some_iff.mp hdefaults
  exact ⟨rfl, rfl, keys, hkeys, not_lt.mp hmax⟩

theorem assignTableToColumns_of_piece
    (hpiece : ∀ c ∈ columns, (getKeyword .optionalPiece c).isSome = true) :
    assignTableToColumns columns = columns := by
  apply ext_getElem?
  intro i
  rw [assignTableToColumns, getElem?_mapIdx]
  cases hcolumn : columns[i]? with
  | none => rfl
  | some column =>
    have hmem := mem_of_getElem? hcolumn
    rw [map_some, assignPiece, if_pos (hpiece column hmem)]

theorem name_assignPiece (i : ℕ) (column : ColumnDefinition) :
    (assignPiece i column).name = column.name := by
  unfold assignPiece
  split_ifs <;> rfl

theorem map_name_assignTableToColumns (columns : List ColumnDefinition) :
    (assignTableToColumns columns).map ColumnDefinition.name =
      columns.map ColumnDefinition.name := by
  apply ext_getElem?
  intro i
  rw [assignTableToColumns, getElem?_map, getElem?_mapIdx, getElem?_map]
  cases columns[i]? with
  | none => rfl
  | some column => exact congrArg some (name_assignPiece _ _)

/-- The text of the table is read as the same table. -/
def RoundTrips (table : TableDefinition) : Prop :=
  ∃ text, emitCreateTable table = some text ∧ parseCreateTable text = some table

/-- The names have no backquotes and parentheses, no column has a DELIM of its
own, and every part fits into the buffer it is written to. -/
def TextFits (table : TableDefinition) : Prop :=
  EmitFits table ∧ byteSize table.name < maxStrConst ∧ isCleanName table.name = true ∧
    ∀ c ∈ table.columns, isCleanName c.name = true ∧
    c.keywords.all (·.keyword ≠ .optionalDelim) = true

theorem mem_lex_of_readTokens {text : List Char} {tokens : List Token}
    (hread : readTokens text = some tokens) : tokens = lex text ∧
    ∀ token ∈ lex text, byteSize (tokenText token) < maxStrConst := by
  unfold readTokens at hread
  split_ifs at hread with hall
  simp only [List.all_eq_true, decide_eq_true_eq] at hall
  exact ⟨(some.inj hread).symm, hall⟩

theorem textFits_of_roundTrips (htable : table.WellFormed)
    (hround : RoundTrips table) : TextFits table := by
  obtain ⟨text, hemit, hparse⟩ := hround
  obtain ⟨hfits, rfl⟩ := (emitCreateTable_eq_some_iff htable).mp hemit
  obtain ⟨tokens, htokens, hparse⟩ := bind_eq_some_iff.mp hparse
  obtain ⟨⟨name, columns, keywords⟩, hread, hdefaults⟩ :=
    bind_eq_some_iff.mp hparse
  obtain ⟨rfl, hsizes⟩ := mem_lex_of_readTokens htokens
  obtain ⟨hname, hcolumns, -⟩ := of_createTableDefaults hdefaults
  have hclean : isCleanName table.name = true := by
    obtain ⟨tokens, hlex⟩ := exists_lex_tableText table
    rw [hlex] at hread
    have hname' := (of_readTableDefinition hread).1
    rw [← hname] at hname'
    exact isCleanName_of_read hname'.symm
  rw [lex_tableText hclean] at hread hsizes
  obtain ⟨-, rest, behind, hrest, helements⟩ := of_readTableDefinition hread
  obtain ⟨-, rfl⟩ := cons.inj hrest
  have hnames : columns.map ColumnDefinition.name = table.columns.map ColumnDefinition.name := by
    rw [hcolumns, map_name_assignTableToColumns]
  have hcleans := isCleanName_of_tableElementList htable.columns helements hnames
  rw [tableElementList_clean htable.columns hcleans htable.nonempty
    (length_le_lex hcleans htable.nonempty _)] at helements
  obtain ⟨rfl, -⟩ := Prod.mk.inj (some.inj helements)
  have hpieces : ∀ c ∈ table.columns.map readBack, (getKeyword .optionalPiece c).isSome = true := by
    intro c hc
    obtain ⟨column, hcolumn, rfl⟩ := mem_map.mp hc
    exact getKeyword_piece_readBack (htable.columns column hcolumn)
  rw [assignTableToColumns_of_piece hpieces] at hcolumns
  refine ⟨hfits, hsizes (.quoted table.name) (by simp), hclean, ?_⟩
  intro c hc
  have hback : table.columns.map readBack = table.columns.map id := by
    rw [← hcolumns, List.map_id]
  exact ⟨hcleans c hc, readBack_eq_self_iff.mp (map_inj_left.mp hback c hc)⟩

theorem byteSize_columnName_le (column : ColumnDefinition) :
    byteSize column.name ≤ byteSize (columnText column) := by
  simp only [columnText, quotedName, byteSize_append, byteSize_cons]
  omega

def textWords : List Token :=
  words ["PRIMARY", "KEY", "NOT", "NULL", "UNIQUE", "EXTRACT", "PIECE", "GLOBAL", "NUM", "ADVANCE",
      "START", "END", "INTEGER", "VARCHAR", "CREATE", "TABLE", "DELIM"] ++
    [.symbol ['('], .symbol [')'], .symbol [','], .symbol [';'], .number ['2', '5']]

theorem byteSize_textWords : ∀ token ∈ textWords, byteSize (tokenText token) < maxStrConst := by
  decide

theorem mem_words_literal {texts : List String} {value : List Char}
    (htexts : ∀ word ∈ words texts, word ∈ textWords)
    (htoken : token ∈ words texts ++ [.literal value]) :
    token = .literal value ∨ token ∈ textWords := by
  rcases mem_append.mp htoken with htoken | htoken
  · exact .inr (htexts token htoken)
  · exact .inl (mem_singleton.mp htoken)

theorem mem_keywordTokens {k : ColumnKeyword} (htoken : token ∈ keywordTokens k) :
    token = .literal (k.value.getD []) ∨ token ∈ textWords := by
  have hplain : ∀ texts, (∀ word ∈ words texts, word ∈ textWords) →
      token ∈ words texts → token = .literal (k.value.getD []) ∨ token ∈ textWords :=
    fun texts htexts htoken => .inr (htexts token htoken)
  obtain ⟨keyword, value⟩ := k
  cases keyword
  case primaryKey => exact hplain ["PRIMARY", "KEY"] (by decide) htoken
  case notNull => exact hplain ["NOT", "NULL"] (by decide) htoken
  case uniqueConstraint => exact hplain ["UNIQUE"] (by decide) htoken
  case optionalKeyNum =>
    exact mem_words_literal (by decide) htoken
  all_goals first
    | exact absurd htoken not_mem_nil
    | exact mem_words_literal (by decide) htoken

theorem mem_typeTokens {type : TableStatement.DataType}
    (htoken : token ∈ typeTokens type) : token ∈ textWords := by
  cases type <;> revert token <;> decide

/-- The tokens of a column fit if its text does. -/
theorem byteSize_bodyTokens {column : ColumnDefinition} (hcolumn : column.WellFormed)
    (hsize : byteSize (columnText column) < maxStrConst) (htoken : token ∈ bodyTokens column) :
    byteSize (tokenText token) < maxStrConst := by
  rcases mem_append.mp htoken with htoken | htoken
  · exact byteSize_textWords token (mem_typeTokens htoken)
  · obtain ⟨k, hk, htoken⟩ := mem_flatMap.mp htoken
    rcases mem_keywordTokens htoken with rfl | htoken
    · have hdoubled := byteSize_le_doubled (k.value.getD [])
      have hvalue := byteSize_value_le (hcolumn.keywords k hk)
      have hkeyword := byteSize_le_flatMap hk
      simp only [columnText, columnBody, byteSize_append] at hsize
      rw [tokenText]
      omega
    · exact byteSize_textWords token htoken

theorem byteSize_columnsTokens (hcolumns : ∀ c ∈ columns, c.WellFormed)
    (hsizes : ∀ c ∈ columns, byteSize (columnText c) < maxStrConst)
    (htoken : token ∈ columnsTokens columns) : byteSize (tokenText token) < maxStrConst := by
  fun_induction columnsTokens columns with
  | case1 => cases htoken
  | case2 column =>
    rw [forall_mem_singleton] at hcolumns hsizes
    rcases mem_cons.mp htoken with rfl | htoken
    · exact Nat.lt_of_le_of_lt (byteSize_columnName_le column) hsizes
    · exact byteSize_bodyTokens hcolumns hsizes htoken
  | case3 column columns hmore ih =>
    rw [forall_mem_cons] at hcolumns hsizes
    rcases mem_cons.mp htoken with rfl | htoken
    · exact Nat.lt_of_le_of_lt (byteSize_columnName_le column) hsizes.1
    · rcases mem_append.mp htoken with htoken | htoken
      · exact byteSize_bodyTokens hcolumns.1 hsizes.1 htoken
      · rcases mem_cons.mp htoken with rfl | htoken
        · exact byteSize_textWords _ (by decide)
        · exact ih hcolumns.2 hsizes.2 htoken

theorem byteSize_tailTokens (hfits : EmitFits table) (htoken : token ∈ tailTokens table) :
    byteSize (tokenText token) < maxStrConst := by
  obtain ⟨-, hsource, hdelim⟩ := hfits
  have hliteral : ∀ value, byteSize (doubled '"' value) < maxStrConst →
      byteSize (tokenText (.literal value)) < maxStrConst :=
    fun value hvalue => Nat.lt_of_le_of_lt (byteSize_le_doubled value) hvalue
  rw [tailTokens, mem_append, mem_append] at htoken
  rcases htoken with (htoken | htoken) | htoken
  · rcases mem_words_literal (by decide) htoken with rfl | htoken
    · exact hliteral _ hsource
    · exact byteSize_textWords token htoken
  · rcases mem_words_literal (by decide) htoken with rfl | htoken
    · exact hliteral _ hdelim
    · exact byteSize_textWords token htoken
  · rw [mem_singleton.mp htoken]
    exact byteSize_textWords _ (by decide)

theorem roundTrips_of_textFits (htable : table.WellFormed)
    (hfits : TextFits table) : RoundTrips table := by
  obtain ⟨hemit, hsize, hclean, hcolumns⟩ := hfits
  have hcleans : ∀ c ∈ table.columns, isCleanName c.name = true :=
    fun c hc => (hcolumns c hc).1
  have hback : table.columns.map readBack = table.columns := by
    nth_rewrite 2 [← map_id table.columns]
    exact map_inj_left.mpr fun c hc =>
      readBack_eq_self_iff.mpr (hcolumns c hc).2
  have helements := tableElementList_clean htable.columns hcleans
    htable.nonempty (length_le_lex hcleans htable.nonempty (tailText table)) (tailText table)
  rw [hback, lex_tailText] at helements
  refine ⟨tableText table, (emitCreateTable_eq_some_iff htable).mpr ⟨hemit, rfl⟩, ?_⟩
  have htokens : readTokens (tableText table) = some (lex (tableText table)) := by
    rw [readTokens, if_pos]
    simp only [List.all_eq_true, decide_eq_true_eq]
    intro token htoken
    rw [lex_tableText hclean, lex_columnsText hcleans htable.nonempty, lex_tailText] at htoken
    rcases mem_append.mp htoken with htoken | htoken
    · have hwords : ∀ word ∈ words ["CREATE", "TABLE"], word ∈ textWords := by
        decide
      exact byteSize_textWords token (hwords token htoken)
    · simp only [mem_cons, mem_append] at htoken
      rcases htoken with rfl | rfl | htoken | rfl | htoken
      · exact hsize
      · exact byteSize_textWords _ (by decide)
      · exact byteSize_columnsTokens htable.columns hemit.1 htoken
      · exact byteSize_textWords _ (by decide)
      · exact byteSize_tailTokens hemit htoken
  have hread : readTableDefinition (words ["CREATE", "TABLE"] ++
      .quoted table.name :: .symbol ['('] :: _) = _ :=
    readTableDefinition_of helements rfl rfl
  rw [parseCreateTable, htokens, lex_tableText hclean]
  simp only [bind_eq_bind, bind_some, hread]
  rw [assignTableToColumns_of_piece fun c hc => (htable.columns c hc).piece, htable.name]
  exact createTableDefaults_of htable

end Tables

end Octo
