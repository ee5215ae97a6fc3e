/-
The lexer.  A text is read item by item: blanks and comments, which give no
token, and words, numbers, literals and symbols, each as long as the rules of
the lexer allow.  A literal or a comment that is not closed takes the rest of the
text with it.
-/
import Mathlib.Data.List.Basic

namespace Octo

open List Option Prod

namespace SqlLexer

/-- The tokens with what they carry.  Keywords and identifiers, which differ by
their text only, are words; so are the names that begin with a dollar sign. -/
inductive Token
  | word (text : List Char)
  | qualified (text : List Char)
  | number (text : List Char)
  | literal (value : List Char)
  | quoted (value : List Char)
  | symbol (text : List Char)
deriving DecidableEq, Repr

/-- `[a-zA-Z0-9_]` -/
def isPlain (c : Char) : Bool :=
  c.isAlphanum || c = '_'

/-- `[a-zA-Z0-9_$^]` -/
def isWordChar (c : Char) : Bool :=
  isPlain c || c = '$' || c = '^'

/-- `[a-zA-Z$]` -/
def isWordStart (c : Char) : Bool :=
  c.isAlpha || c = '$'

def isSpace (c : Char) : Bool :=
  c = ' ' || c = '\t' || c = '\r' || c = '\n'

/-- A word, or two plain words with a period between them if that is longer. -/
def lexWord (c : Char) (rest : List Char) : Token × List Char :=
  match rest.dropWhile isPlain with
  | '.' :: d :: behind =>
    if c.isAlpha && d.isAlpha then
      (.qualified (c :: rest.takeWhile isPlain ++
        '.' :: d :: behind.takeWhile isPlain), behind.dropWhile isPlain)
    else (.word (c :: rest.takeWhile isWordChar), rest.dropWhile isWordChar)
  | _ => (.word (c :: rest.takeWhile isWordChar), rest.dropWhile isWordChar)

/-- `[0-9](\.)?[0-9]*`: a period only behind the first digit. -/
def lexNumber (c : Char) : List Char → Token × List Char
  | '.' :: rest =>
    (.number (c :: '.' :: rest.takeWhile Char.isDigit), rest.dropWhile Char.isDigit)
  | rest =>
    (.number (c :: rest.takeWhile Char.isDigit), rest.dropWhile Char.isDigit)

/-- A literal, up to its closing quote; two quotes stand for one. -/
def readLiteral (quote : Char) : List Char → Option (List Char × List Char)
  | [] => none
  | [c] => if c = quote then some ([], []) else none
  | c :: d :: rest =>
    if c ≠ quote then
      (readLiteral quote (d :: rest)).map fun read => (c :: read.1, read.2)
    else if d = quote then
      (readLiteral quote rest).map fun read => (quote :: read.1, read.2)
    else some ([], d :: rest)

/-- An identifier in backquotes.  No rule has the parentheses, which are echoed
and left out. -/
def readQuoted : List Char → Option (List Char × List Char)
  | [] => none
  | c :: rest =>
    if c = '\x60' then some ([], rest)
    else if c = '(' || c = ')' then readQuoted rest
    else (readQuoted rest).map fun read => (c :: read.1, read.2)

def skipComment (rest : List Char) : List Char :=
  (rest.dropWhile (· ≠ '\n')).tail

/-- A comment up to an asterisk with a solidus. -/
def skipCstyle : List Char → Option (List Char)
  | [] => none
  | [_] => none
  | c :: d :: rest =>
    if c = '*' ∧ d = '/' then some rest else skipCstyle (d :: rest)

def isPair (c d : Char) : Bool :=
  (c = '<' && (d = '=' || d = '>')) || (c = '>' && d = '=') || (c = '!' && d = '=')

/-- The symbols of one or two characters, and the comments they begin. -/
def lexSymbol (c : Char) : List Char → Option (List Token × List Char)
  | [] => some ([.symbol [c]], [])
  | d :: rest =>
    if c = '-' ∧ d = '-' then some ([], skipComment rest)
    else if c = '/' ∧ d = '*' then
      (skipCstyle rest).map fun behind => ([], behind)
    else if isPair c d then some ([.symbol [c, d]], rest)
    else some ([.symbol [c]], d :: rest)

/-- One item and what is behind it; none if the text ends in the middle. -/
def lexItem (c : Char) (rest : List Char) : Option (List Token × List Char) :=
  if isSpace c then some ([], rest)
  else if isWordStart c then
    some ([(lexWord c rest).1], (lexWord c rest).2)
  else if c.isDigit then
    some ([(lexNumber c rest).1], (lexNumber c rest).2)
  else if c = '\x22' ∨ c = '\x27' then
    (readLiteral c rest).map fun read => ([.literal read.1], read.2)
  else if c = '\x60' then
    (readQuoted rest).map fun read => ([.quoted read.1], read.2)
  else if c = '#' then some ([], skipComment rest)
  else lexSymbol c rest

theorem lexWord_suffix (c : Char) (rest : List Char) : (lexWord c rest).2 <:+ rest := by
  unfold lexWord
  split
  · rename_i d behind hbehind
    split_ifs
    · have hplain := dropWhile_suffix (l := rest) isPlain
      rw [hbehind] at hplain
      exact ((dropWhile_suffix isPlain).trans (suffix_append ['.', d] behind)).trans hplain
    · exact dropWhile_suffix isWordChar
  · exact dropWhile_suffix isWordChar

theorem lexNumber_suffix (c : Char) (rest : List Char) : (lexNumber c rest).2 <:+ rest := by
  unfold lexNumber
  split
  · exact (dropWhile_suffix Char.isDigit).trans (suffix_cons _ _)
  · exact dropWhile_suffix Char.isDigit

variable {behind rest value : List Char} {c : Char} {tokens : List Token}

theorem readLiteral_suffix {quote : Char} (hread : readLiteral quote rest = some (value, behind)) :
    behind <:+ rest := by
  fun_induction readLiteral quote rest generalizing value behind with
  | case1 => cases hread
  | case2 => exact (mk.inj (some.inj hread)).2 ▸ nil_suffix
  | case3 => cases hread
  | case4 c d rest hc ih =>
    obtain ⟨read, hread, heq⟩ := map_eq_some_iff.mp hread
    rw [← (mk.inj heq).2]
    exact (ih hread).trans (suffix_cons _ _)
  | case5 c rest hc ih =>
    obtain ⟨read, hread, heq⟩ := map_eq_some_iff.mp hread
    rw [← (mk.inj heq).2]
    exact (ih hread).trans (suffix_append [_, _] rest)
  | case6 c rest hc hd =>
    rw [← (mk.inj (some.inj hread)).2]
    exact suffix_cons _ _

theorem readQuoted_suffix (hread : readQuoted rest = some (value, behind)) : behind <:+ rest := by
  fun_induction readQuoted rest generalizing value behind with
  | case1 => cases hread
  | case2 rest =>
    rw [← (mk.inj (some.inj hread)).2]
    exact suffix_cons _ _
  | case3 c rest hc hparen ih =>
    exact (ih hread).trans (suffix_cons _ _)
  | case4 c rest hc hparen ih =>
    obtain ⟨read, hread, heq⟩ := map_eq_some_iff.mp hread
    rw [← (mk.inj heq).2]
    exact (ih hread).trans (suffix_cons _ _)

theorem skipComment_suffix (rest : List Char) : skipComment rest <:+ rest :=
  (tail_suffix _).trans (dropWhile_suffix _)

theorem skipCstyle_suffix (hskip : skipCstyle rest = some behind) : behind <:+ rest := by
  fun_induction skipCstyle rest with
  | case1 => cases hskip
  | case2 => cases hskip
  | case3 c d rest hclose =>
    exact some.inj hskip ▸ suffix_append [c, d] rest
  | case4 c d rest hclose ih => exact (ih hskip).trans (suffix_cons _ _)

theorem lexSymbol_suffix (hitem : lexSymbol c rest = some (tokens, behind)) : behind <:+ rest := by
  cases rest with
  | nil => exact (mk.inj (some.inj hitem)).2 ▸ nil_suffix
  | cons d rest =>
    rw [lexSymbol] at hitem
    split_ifs at hitem
    · exact (mk.inj (some.inj hitem)).2 ▸ (skipComment_suffix rest).trans (suffix_cons _ _)
    · obtain ⟨skipped, hskip, heq⟩ := map_eq_some_iff.mp hitem
      exact (mk.inj heq).2 ▸ (skipCstyle_suffix hskip).trans (suffix_cons _ _)
    · exact (mk.inj (some.inj hitem)).2 ▸ suffix_cons _ _
    · exact (mk.inj (some.inj hitem)).2 ▸ suffix_rfl

theorem lexItem_suffix (hitem : lexItem c rest = some (tokens, behind)) : behind <:+ rest := by
  unfold lexItem at hitem
  split_ifs at hitem
  · exact (mk.inj (some.inj hitem)).2 ▸ suffix_rfl
  · exact (mk.inj (some.inj hitem)).2 ▸ lexWord_suffix c rest
  · exact (mk.inj (some.inj hitem)).2 ▸ lexNumber_suffix c rest
  · obtain ⟨read, hread, heq⟩ := map_eq_some_iff.mp hitem
    exact (mk.inj heq).2 ▸ readLiteral_suffix hread
  · obtain ⟨read, hread, heq⟩ := map_eq_some_iff.mp hitem
    exact (mk.inj heq).2 ▸ readQuoted_suffix hread
  · exact (mk.inj (some.inj hitem)).2 ▸ skipComment_suffix rest
  · exact lexSymbol_suffix hitem

theorem lexWord_token (c : Char) (rest : List Char) : (∃ text, (lexWord c rest).1 = .word text) ∨
    ∃ text, (lexWord c rest).1 = .qualified text := by
  unfold lexWord
  split
  · split_ifs
    · exact .inr ⟨_, rfl⟩
    · exact .inl ⟨_, rfl⟩
  · exact .inl ⟨_, rfl⟩

theorem lexNumber_token (c : Char) (rest : List Char) :
    ∃ text, (lexNumber c rest).1 = .number text := by
  unfold lexNumber
  split
  · exact ⟨_, rfl⟩
  · exact ⟨_, rfl⟩

theorem lexSymbol_tokens (hitem : lexSymbol c rest = some (tokens, behind)) :
    tokens = [] ∨ ∃ text, tokens = [.symbol text] := by
  cases rest with
  | nil => exact .inr ⟨_, (mk.inj (some.inj hitem)).1.symm⟩
  | cons d rest =>
    rw [lexSymbol] at hitem
    split_ifs at hitem
    · exact .inl (mk.inj (some.inj hitem)).1.symm
    · obtain ⟨skipped, -, heq⟩ := map_eq_some_iff.mp hitem
      exact .inl (mk.inj heq).1.symm
    · exact .inr ⟨_, (mk.inj (some.inj hitem)).1.symm⟩
    · exact .inr ⟨_, (mk.inj (some.inj hitem)).1.symm⟩

/-- Words are made by `lexWord` only. -/
theorem lexWord_of_mem {text : List Char} (hitem : lexItem c rest = some (tokens, behind))
    (htext : .word text ∈ tokens) : (lexWord c rest).1 = .word text := by
  unfold lexItem at hitem
  split_ifs at hitem
  · rw [← (mk.inj (some.inj hitem)).1] at htext
    cases htext
  · rw [← (mk.inj (some.inj hitem)).1, mem_singleton] at htext
    exact htext.symm
  · rw [← (mk.inj (some.inj hitem)).1, mem_singleton] at htext
    obtain ⟨number, hnumber⟩ := lexNumber_token c rest
    rw [hnumber] at htext
    cases htext
  iterate 2
    · obtain ⟨read, -, heq⟩ := map_eq_some_iff.mp hitem
      rw [← (mk.inj heq).1, mem_singleton] at htext
      cases htext
  · rw [← (mk.inj (some.inj hitem)).1] at htext
    cases htext
  · rcases lexSymbol_tokens hitem with rfl | ⟨symbol, rfl⟩
    · cases htext
    · rw [mem_singleton] at htext
      cases htext

section Literals

variable {quote c : Char}

theorem readLiteral_cons (hc : c ≠ quote) (rest : List Char) : readLiteral quote (c :: rest) =
    (readLiteral quote rest).map fun read => (c :: read.1, read.2) := by
  cases rest with
  | nil => simp [readLiteral, hc]
  | cons d rest => rw [readLiteral, if_pos hc]

theorem readLiteral_pair (rest : List Char) : readLiteral quote (quote :: quote :: rest) =
    (readLiteral quote rest).map fun read => (quote :: read.1, read.2) := by
  simp [readLiteral]

variable {rest value : List Char}

theorem readLiteral_close (hrest : rest.head? ≠ some quote) :
    readLiteral quote (quote :: rest) = some ([], rest) := by
  cases rest with
  | nil => simp [readLiteral]
  | cons d rest =>
    have hd : d ≠ quote := fun h => hrest (by rw [h]; rfl)
    simp [readLiteral, hd]

theorem eq_of_mem_head?_readLiteral {d : Char} {behind : List Char}
    (hread : readLiteral quote (c :: rest) = some (value, behind))
    (hd : d ∈ value.head?) : d = c := by
  by_cases hc : c = quote
  · subst hc
    by_cases hrest : rest.head? = some c
    · obtain ⟨later, rfl⟩ := head?_eq_some_iff.mp hrest
      rw [readLiteral_pair] at hread
      obtain ⟨read, -, heq⟩ := map_eq_some_iff.mp hread
      rw [← (mk.inj heq).1] at hd
      exact (some.inj hd).symm
    · rw [readLiteral_close hrest] at hread
      rw [← (mk.inj (some.inj hread)).1] at hd
      cases hd
  · rw [readLiteral_cons hc] at hread
    obtain ⟨read, -, heq⟩ := map_eq_some_iff.mp hread
    rw [← (mk.inj heq).1] at hd
    exact (some.inj hd).symm

/-- A text without the quote is read as it is. -/
theorem readLiteral_append (hvalue : quote ∉ value)
    (rest : List Char) : readLiteral quote (value ++ rest) =
      (readLiteral quote rest).map fun read => (value ++ read.1, read.2) := by
  induction value with
  | nil => simp
  | cons c value ih =>
    rw [mem_cons, not_or] at hvalue
    rw [cons_append, readLiteral_cons (Ne.symm hvalue.1), ih hvalue.2, Option.map_map]
    rfl

end Literals

theorem skipCstyle_cons (hopen : c = '*' → rest.head? ≠ some '/') :
    skipCstyle (c :: rest) = skipCstyle rest := by
  cases rest with
  | nil => rfl
  | cons d rest =>
    have hnot : ¬(c = '*' ∧ d = '/') := by
      rintro ⟨hc, rfl⟩
      exact hopen hc rfl
    rw [skipCstyle, if_neg hnot]

theorem skipCstyle_append {body : List Char} (hbody : skipCstyle body = none)
    (hrest : rest.head? ≠ some '/') : skipCstyle (body ++ rest) = skipCstyle rest := by
  fun_induction skipCstyle body with
  | case1 => rfl
  | case2 c => exact skipCstyle_cons fun _ => hrest
  | case3 => cases hbody
  | case4 c d body hclose ih =>
    rw [cons_append, skipCstyle_cons ?_]
    · exact ih hbody
    · rintro rfl hd
      exact hclose ⟨rfl, some.inj hd⟩

/-- A comment is closed by its own text, whatever follows. -/
theorem exists_skipCstyle_append (hskip : skipCstyle rest = some behind) :
    ∃ body, rest = body ++ behind ∧ ∀ other, skipCstyle (body ++ other) = some other := by
  fun_induction skipCstyle rest with
  | case1 => cases hskip
  | case2 => cases hskip
  | case3 c d rest hclose =>
    obtain ⟨rfl, rfl⟩ := hclose
    exact ⟨['*', '/'], by rw [← some.inj hskip]; rfl, fun other => by simp [skipCstyle]⟩
  | case4 c d rest hclose ih =>
    obtain ⟨body, hbody, hany⟩ := ih hskip
    refine ⟨c :: body, by rw [hbody, cons_append], fun other => ?_⟩
    rw [cons_append, skipCstyle_cons ?_]
    · exact hany other
    · rintro rfl
      cases body with
      | nil =>
        have hnone : skipCstyle [] = some [] := hany []
        cases hnone
      | cons first body =>
        rw [cons_append, List.cons.injEq] at hbody
        rw [cons_append, head?_cons, ← hbody.1]
        exact fun h => hclose ⟨rfl, some.inj h⟩

section Words

variable {c d : Char} {rest behind : List Char}

theorem lexWord_qualified (hc : c.isAlpha = true)
    (hrest : rest.dropWhile isPlain = '.' :: d :: behind) (hd : d.isAlpha = true) :
    lexWord c rest = (.qualified (c :: rest.takeWhile isPlain ++
    '.' :: d :: behind.takeWhile isPlain), behind.dropWhile isPlain) := by
  rw [lexWord, hrest]
  simp [hc, hd]

theorem lexWord_word (hrest : ∀ d behind, rest.dropWhile isPlain = '.' :: d :: behind →
    ¬(c.isAlpha = true ∧ d.isAlpha = true)) : lexWord c rest =
    (.word (c :: rest.takeWhile isWordChar), rest.dropWhile isWordChar) := by
  unfold lexWord
  split
  · rename_i d behind hbehind
    rw [if_neg]
    rw [Bool.and_eq_true]
    exact hrest d behind hbehind
  · rfl

theorem eq_cons_of_lexWord {text : List Char} (hword : (lexWord c rest).1 = .word text) :
    text = c :: rest.takeWhile isWordChar := by
  unfold lexWord at hword
  split at hword
  · split_ifs at hword
    exact (Token.word.inj hword).symm
  · exact (Token.word.inj hword).symm

end Words

def lex : List Char → List Token
  | [] => []
  | c :: rest =>
    match _hitem : lexItem c rest with
    | none => []
    | some (tokens, behind) => tokens ++ lex behind
termination_by text => text.length
decreasing_by exact Nat.lt_succ_of_le (lexItem_suffix _hitem).length_le

/-- A condition on every item of a text, with its first character and what is
behind that. -/
def EveryItem (condition : Char → List Char → Prop) : List Char → Prop
  | [] => True
  | c :: rest =>
    condition c rest ∧ match _hitem : lexItem c rest with
      | none => True
      | some (_, behind) => EveryItem condition behind
termination_by text => text.length
decreasing_by exact Nat.lt_succ_of_le (lexItem_suffix _hitem).length_le

section Items

variable {c : Char} {rest behind : List Char} {tokens : List Token}
  {condition : Char → List Char → Prop}

theorem lex_nil : lex [] = [] := by
  rw [lex]

theorem lex_of_none (hitem : lexItem c rest = none) : lex (c :: rest) = [] := by
  rw [lex]
  split
  · rfl
  · rename_i hsome
    rw [hitem] at hsome
    cases hsome

theorem lex_of_some (hitem : lexItem c rest = some (tokens, behind)) :
    lex (c :: rest) = tokens ++ lex behind := by
  rw [lex]
  split
  · rename_i hnone
    rw [hitem] at hnone
    cases hnone
  · rename_i hsome
    rw [hitem] at hsome
    cases hsome
    rfl

theorem everyItem_nil : EveryItem condition [] := by
  rw [EveryItem]
  trivial

theorem everyItem_of_none (hitem : lexItem c rest = none) :
    EveryItem condition (c :: rest) ↔ condition c rest := by
  rw [EveryItem]
  split
  · exact and_iff_left trivial
  · rename_i hsome
    rw [hitem] at hsome
    cases hsome

theorem everyItem_of_some (hitem : lexItem c rest = some (tokens, behind)) :
    EveryItem condition (c :: rest) ↔ condition c rest ∧ EveryItem condition behind := by
  rw [EveryItem]
  split
  · rename_i hnone
    rw [hitem] at hnone
    cases hnone
  · rename_i hsome
    rw [hitem] at hsome
    cases hsome
    rfl

/-- Texts are taken item by item. -/
theorem item_induction {motive : List Char → Prop} (nil : motive [])
    (none : ∀ c rest, lexItem c rest = none → motive (c :: rest))
    (some : ∀ c rest tokens behind, lexItem c rest = some (tokens, behind) →
      motive behind → motive (c :: rest)) (text : List Char) : motive text := by
  induction hlength : text.length using Nat.strongRecOn generalizing text with
  | ind length ih =>
    cases text with
    | nil => exact nil
    | cons c rest =>
      cases hitem : lexItem c rest with
      | none => exact none c rest hitem
      | some item =>
        have hlt : item.2.length < length := by
          rw [← hlength]
          exact Nat.lt_succ_of_le (lexItem_suffix hitem).length_le
        exact some c rest item.1 item.2 hitem (ih _ hlt _ rfl)

/-- The tokens of at most so many items, to run the lexer. -/
def lexFuel : Nat → List Char → List Token
  | 0, _ => []
  | _ + 1, [] => []
  | fuel + 1, c :: rest =>
    match lexItem c rest with
    | none => []
    | some (tokens, behind) => tokens ++ lexFuel fuel behind

theorem lexFuel_eq {fuel : Nat} {text : List Char}
    (hfuel : text.length ≤ fuel) : lexFuel fuel text = lex text := by
  induction fuel generalizing text with
  | zero =>
    rw [length_eq_zero_iff.mp (Nat.le_zero.mp hfuel), lex_nil]
    rfl
  | succ fuel ih =>
    cases text with
    | nil => rw [lex_nil, lexFuel]
    | cons c rest =>
      cases hitem : lexItem c rest with
      | none => rw [lexFuel, hitem, lex_of_none hitem]
      | some item =>
        have hle := (lexItem_suffix hitem).length_le
        rw [length_cons] at hfuel
        rw [lexFuel, hitem, lex_of_some hitem]
        exact congrArg (item.1 ++ ·) (ih (by omega))

end Items

end SqlLexer

end Octo
