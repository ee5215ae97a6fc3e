/-
CREATE TABLE and the text of its result.  A table that the grammar accepts is
read again from the text that is emitted for it, if that text fits into the
buffers, the names in it have no backquotes and no parentheses, and no column
has a DELIM.
-/
import Octo.TableText

namespace Octo

open SqlLexer List Option

section Accepted

variable {tokens rest : List Token}

variable {name : List Char} {keywords : List ColumnKeyword}
  {column : ColumnDefinition} {columns : List ColumnDefinition}

theorem toUpper_identifier {token : Token}
    (hname : identifier token = some name) : toUpper name = name := by
  unfold identifier at hname
  split at hname
  · split_ifs at hname
    rw [← some.inj hname]
    exact toUpper_toUpper _
  · rw [← some.inj hname]
    exact toUpper_toUpper _
  · rw [← some.inj hname]
    exact toUpper_toUpper _
  · cases hname

/-- Names are in capitals. -/
theorem toUpper_readColumnName (hread : readColumnName tokens = some (name, rest)) :
    toUpper name = name := by
  unfold readColumnName at hread
  split at hread
  · split at hread
    · rename_i hname
      obtain ⟨rfl, -⟩ := Prod.mk.inj (some.inj hread)
      exact toUpper_identifier hname
    · split at hread
      · obtain ⟨tableName, -, hread⟩ := bind_eq_some_iff.mp hread
        obtain ⟨columnName, -, hread⟩ := bind_eq_some_iff.mp hread
        split_ifs at hread
        obtain ⟨rfl, -⟩ := Prod.mk.inj (some.inj hread)
        have happend : toUpper (toUpper tableName ++ '.' :: toUpper columnName) =
            toUpper (toUpper tableName) ++ '.' :: toUpper (toUpper columnName) := by
          simp [toUpper]
        rw [happend, toUpper_toUpper, toUpper_toUpper]
      · cases hread
  · cases hread

theorem type_of_readDataType {type : TableStatement.DataType}
    (hread : readDataType tokens = some (type, rest)) :
    type = .integerType ∨ type = .characterStringType := by
  unfold readDataType at hread
  split at hread
  · split_ifs at hread
    · split at hread
      · split_ifs at hread
        all_goals
          obtain ⟨_, -, ⟨⟩⟩ := map_eq_some_iff.mp hread
          exact .inr rfl
      · cases hread
    · obtain ⟨_, -, ⟨⟩⟩ := map_eq_some_iff.mp hread
      exact .inr rfl
    · obtain ⟨_, -, ⟨⟩⟩ := map_eq_some_iff.mp hread
      exact .inl rfl
    · cases hread
      exact .inl rfl
  · cases hread

theorem isColumnKeyword_cons {k : ColumnKeyword} {read : Option (List ColumnKeyword × List Token)}
    (hk : isColumnKeyword k = true) (hothers : ∀ others behind, read = some (others, behind) →
    ∀ k ∈ others, isColumnKeyword k = true)
    (hread : (read.bind fun read => some (k :: read.1, read.2)) = some (keywords, rest)) :
    ∀ k ∈ keywords, isColumnKeyword k = true := by
  obtain ⟨⟨others, behind⟩, hbehind, ⟨⟩⟩ := bind_eq_some_iff.mp hread
  exact forall_mem_cons.mpr ⟨hk, hothers others behind hbehind⟩

theorem isColumnKeyword_of_columnDefinitionTail
    (hread : columnDefinitionTail tokens = some (keywords, rest)) :
    ∀ k ∈ keywords, isColumnKeyword k = true := by
  fun_induction columnDefinitionTail tokens generalizing keywords rest with
  | case1 first second tokens keyword hkeyword ih =>
    obtain ⟨value, -, hread⟩ := bind_eq_some_iff.mp hread
    refine isColumnKeyword_cons ?_ (fun _ _ => ih) hread
    unfold valueKeyword at hkeyword
    split_ifs at hkeyword <;> cases hkeyword <;> rfl
  | case2 first second hvalue hkey third tokens ih =>
    obtain ⟨value, -, hread⟩ := bind_eq_some_iff.mp hread
    rw [ite_none_right_eq_some] at hread
    exact isColumnKeyword_cons rfl (fun _ _ => ih) hread.2
  | case3 => cases hread
  | case4 first second tokens hvalue hkey hnot hnull ih =>
    exact isColumnKeyword_cons rfl (fun _ _ => ih) hread
  | case5 => cases hread
  | case7 => cases hread
  | case6 _ _ _ _ _ _ _ _ ih | case8 _ _ _ _ _ _ _ _ ih =>
    exact isColumnKeyword_cons rfl (fun _ _ => ih) hread
  | case9 =>
    cases hread
    simp
  | case10 =>
    cases hread
    simp

/-- What is known of a column before it gets its PIECE. -/
structure ColumnDefinition.Parsed (column : ColumnDefinition) : Prop where
  name : toUpper column.name = column.name
  type : column.type = .integerType ∨ column.type = .characterStringType
  keywords : ∀ k ∈ column.keywords, isColumnKeyword k = true

theorem parsed_of_readColumnDefinition (hread : readColumnDefinition tokens = some (column, rest)) :
    column.Parsed := by
  obtain ⟨⟨name, behind⟩, hname, hread⟩ := bind_eq_some_iff.mp hread
  obtain ⟨⟨type, later⟩, htype, hread⟩ := bind_eq_some_iff.mp hread
  obtain ⟨⟨keywords, final⟩, hkeywords, hread⟩ :=
    bind_eq_some_iff.mp hread
  cases hread
  exact ⟨toUpper_readColumnName hname, type_of_readDataType htype,
    isColumnKeyword_of_columnDefinitionTail hkeywords⟩

theorem parsed_of_tableElementList {fuel : ℕ}
    (hread : tableElementList fuel tokens = some (columns, rest)) :
    columns ≠ [] ∧ ∀ c ∈ columns, c.Parsed := by
  induction fuel generalizing tokens columns rest with
  | zero => cases hread
  | succ fuel ih =>
    obtain ⟨column, others, behind, _, -, hcolumn, rfl⟩ :=
      exists_cons_of_tableElementList hread
    refine ⟨by simp, forall_mem_cons.mpr ⟨parsed_of_readColumnDefinition hcolumn, ?_⟩⟩
    rw [tableElementList, hcolumn] at hread
    cases behind with
    | nil =>
      cases hread
      simp
    | cons token behind =>
      change (if isSymbol ',' token then
          (tableElementList fuel behind).bind fun read =>
            some (column :: read.1, read.2)
        else some ([column], token :: behind)) = _ at hread
      split_ifs at hread
      · obtain ⟨⟨read, later⟩, hlater, ⟨⟩⟩ :=
          bind_eq_some_iff.mp hread
        exact (ih hlater).2
      · cases hread
        simp

/-- Every column gets its PIECE. -/
theorem wellFormed_assignPiece (i : ℕ)
    (hcolumn : column.Parsed) : (assignPiece i column).WellFormed := by
  unfold assignPiece
  split_ifs with hpiece
  · exact ⟨hcolumn.name, hcolumn.type, hcolumn.keywords, hpiece⟩
  · refine ⟨hcolumn.name, hcolumn.type, ?_, ?_⟩
    · intro k hk
      rcases mem_append.mp hk with hk | hk
      · exact hcolumn.keywords k hk
      · rw [mem_singleton.mp hk]
        rfl
    · simp [getKeyword]

theorem wellFormed_assignTableToColumns (hcolumns : ∀ c ∈ columns, c.Parsed) :
    ∀ c ∈ assignTableToColumns columns, c.WellFormed := by
  intro c hc
  obtain ⟨i, hi, rfl⟩ := mem_mapIdx.mp hc
  exact wellFormed_assignPiece (i + 1) (hcolumns _ (getElem_mem hi))

theorem parsed_of_readTableDefinition
    (hread : readTableDefinition tokens = some (name, columns, keywords)) :
    toUpper name = name ∧ columns ≠ [] ∧ ∀ c ∈ columns, c.Parsed := by
  unfold readTableDefinition at hread
  split at hread
  · split_ifs at hread
    obtain ⟨⟨name, behind⟩, hname, hread⟩ := bind_eq_some_iff.mp hread
    dsimp only at hread
    split at hread
    · split_ifs at hread
      obtain ⟨⟨columns, later⟩, hcolumns, hread⟩ :=
        bind_eq_some_iff.mp hread
      split at hread
      · split_ifs at hread
        obtain ⟨⟨keywords, final⟩, -, hread⟩ :=
          bind_eq_some_iff.mp hread
        split_ifs at hread
        cases hread
        exact ⟨toUpper_readColumnName hname, parsed_of_tableElementList hcolumns⟩
      · cases hread
    · cases hread
  · cases hread

/-- The tables that the grammar accepts. -/
theorem wellFormed_of_parseCreateTable {text : List Char}
    {table : TableDefinition} (hparse : parseCreateTable text = some table) :
    table.WellFormed := by
  obtain ⟨tokens, -, hparse⟩ := bind_eq_some_iff.mp hparse
  obtain ⟨⟨name, columns, keywords⟩, hread, hdefaults⟩ :=
    bind_eq_some_iff.mp hparse
  obtain ⟨hname, hne, hcolumns⟩ := parsed_of_readTableDefinition hread
  obtain ⟨hname', hcolumns', hkeys⟩ := of_createTableDefaults hdefaults
  rw [← hcolumns'] at hkeys
  refine ⟨by rw [hname', hname], ?_, ?_, hkeys⟩
  · rw [hcolumns']
    intro hnil
    apply hne
    simpa [assignTableToColumns] using hnil
  · rw [hcolumns']
    exact wellFormed_assignTableToColumns hcolumns

/-- The text that is emitted for a table is read as this table again if and
only if it fits. -/
theorem roundTrips_iff_textFits {text : List Char} {table : TableDefinition}
    (haccepted : parseCreateTable text = some table) : RoundTrips table ↔ TextFits table := by
  have htable := wellFormed_of_parseCreateTable haccepted
  exact ⟨textFits_of_roundTrips htable, roundTrips_of_textFits htable⟩

end Accepted

namespace CreateTableExample

def piece (i : Char) : ColumnKeyword :=
  ⟨.optionalPiece, some [i]⟩

/-- A table of names with a key, and more keywords for the names. -/
def names (keywords : List ColumnKeyword) : TableDefinition where
  name := "NAMES".toList
  columns := [⟨"ID".toList, .integerType, [⟨.primaryKey, none⟩, piece '1']⟩,
    ⟨"NAME".toList, .characterStringType, keywords ++ [piece '2']⟩]
  source := "^NAMES(keys(\"ID\"))".toList
  delim := ['|']

theorem parse_of_lexFuel {text : List Char} {table : TableDefinition}
    (htokens : (lexFuel text.length text).all
      (fun token => byteSize (tokenText token) < maxStrConst) = true)
    (hread : ((readTableDefinition (lexFuel text.length text)).bind fun read =>
      createTableDefaults read.1 (assignTableToColumns read.2.1) read.2.2) =
        some table) : parseCreateTable text = some table := by
  rw [lexFuel_eq (Nat.le_refl _)] at htokens hread
  rw [parseCreateTable, readTokens, if_pos htokens]
  exact hread

theorem parse_names : parseCreateTable
    "CREATE TABLE names (id INTEGER PRIMARY KEY, name VARCHAR(30));".toList = some (names []) := by
  apply parse_of_lexFuel
  · decide +kernel
  · decide +kernel

def single (name : String) : TableDefinition where
  name := name.toList
  columns := [⟨"ID".toList, .integerType, [⟨.primaryKey, none⟩, piece '1']⟩]
  source := "^ids".toList
  delim := ['|']

end CreateTableExample

open CreateTableExample in
theorem roundTrips_names : RoundTrips (names []) := by
  refine (roundTrips_iff_textFits parse_names).mpr ⟨⟨?_, ?_, ?_⟩, ?_, ?_, ?_⟩
  all_goals decide +kernel

/-- Another table is read from the text. -/
theorem not_roundTrips {table other : TableDefinition} {text : List Char}
    (hemit : emitCreateTable table = some text) (hparse : parseCreateTable text = some other)
    (hne : other ≠ table) : ¬RoundTrips table := by
  rintro ⟨text', hemit', hparse'⟩
  rw [hemit] at hemit'
  cases hemit'
  rw [hparse] at hparse'
  exact hne (some.inj hparse')

open CreateTableExample in
/-- The DELIM of a column is emitted as GLOBAL, and a parenthesis in a name is
lost. -/
theorem table_text_differs : (parseCreateTable ("CREATE TABLE names (id INTEGER PRIMARY KEY, " ++
    "name VARCHAR(30) DELIM \"-\");").toList = some (names [⟨.optionalDelim, some ['-']⟩]) ∧
    ¬RoundTrips (names [⟨.optionalDelim, some ['-']⟩])) ∧
    (parseCreateTable ("CREATE TABLE 'a(b'.'c' (id INTEGER PRIMARY KEY) " ++
    "GLOBAL \"^ids\";").toList = some (single "A(B.C") ∧ ¬RoundTrips (single "A(B.C")) := by
  have hdelim : emitCreateTable (names [⟨.optionalDelim, some ['-']⟩]) =
      some ("CREATE TABLE `NAMES` (`ID` INTEGER PRIMARY KEY " ++
        "PIECE \"1\", `NAME` VARCHAR(25) GLOBAL \"-\" PIECE \"2\") " ++
        "GLOBAL \"^NAMES(keys(\"\"ID\"\"))\" DELIM \"|\";").toList := by
    decide +kernel
  have hname : emitCreateTable (single "A(B.C") =
      some ("CREATE TABLE `A(B.C` (`ID` INTEGER PRIMARY KEY " ++
        "PIECE \"1\") GLOBAL \"^ids\" DELIM \"|\";").toList := by
    decide +kernel
  have hglobal : names [⟨.optionalSource, some ['-']⟩] ≠ names [⟨.optionalDelim, some ['-']⟩] := by
    decide +kernel
  have hshort : single "AB.C" ≠ single "A(B.C" := by
    decide +kernel
  refine ⟨⟨?_, not_roundTrips hdelim ?_ hglobal⟩, ?_, not_roundTrips hname ?_ hshort⟩
  all_goals
    apply parse_of_lexFuel
    · decide +kernel
    · decide +kernel

end Octo
