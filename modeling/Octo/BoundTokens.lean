/-
The tokens of a bound query.  They are those of the prepared text, with literals
for the parameters, as long as every dollar sign stands for a parameter of its
own and no quote meets the quotes around a value.
-/
import Octo.BindText
import Octo.SqlLexer

namespace Octo

open MValue SqlLexer Option TextParms Char
open List hiding lex map_map

/-- What becomes of a token: a dollar sign with digits is the parameter of that
number, everything else stays. -/
def TextParms.token (parms : TextParms) : Token → Option Token
  | .word ('$' :: digits) =>
    if digits ≠ [] ∧ digits.all Char.isDigit then
      (parms.values[digitsValue digits]?).map .literal
    else some (.word ('$' :: digits))
  | token => some token

/-- The bound query has the tokens of the prepared text, with the values of the
parameters. -/
def TextParms.Faithful (parms : TextParms) (text bound : List Char) : Prop :=
  (lex text).mapM parms.token = some (lex bound)

namespace BoundTokens

/-- A value does not end a comment that it is put in. -/
def Harmless (c : Char) (value : List Char) : Prop :=
  if c = '/' then skipCstyle value = none else '\n' ∉ value

/-- The text of a comment, behind its first character. -/
def commentText (c : Char) (rest behind : List Char) : List Char :=
  if c = '/' then rest.take (rest.length - behind.length)
  else rest.takeWhile (· ≠ '\n')

/-- The condition on an item of the prepared text. -/
def Fits (parms : TextParms) (c : Char) (rest : List Char) : Prop :=
  match lexItem c rest with
  | none => '$' ∉ rest
  | some ([], behind) => isSpace c = true ∨ '$' ∉ commentText c rest behind ∨
      ∀ value ∈ parms.values, Harmless c value
  | some ([.literal value], behind) => '$' ∉ value ∧ (c = '\x22' → behind.head? ≠ some '$')
  | some ([.word text], behind) => '$' ∉ text ∨ ∃ digits value, text = '$' :: digits ∧ digits ≠ [] ∧
      digits.all Char.isDigit = true ∧ parms.values[digitsValue digits]? = some value ∧
      '\x22' ∉ value ∧ behind.head? ≠ some '\x22'
  | some ([.quoted value], _) => '$' ∉ value
  | some _ => True

/-- The condition on a prepared text. -/
def Bindable (parms : TextParms) : List Char → Prop :=
  EveryItem (Fits parms)

/-- No literal and no comment of the text is left open. -/
def Complete : List Char → Prop :=
  EveryItem fun c rest => (lexItem c rest).isSome = true

/-- A value that ends neither a literal nor a comment. -/
def Clean (value : List Char) : Prop :=
  '\x22' ∉ value ∧ '\n' ∉ value ∧ skipCstyle value = none

section Substitution

variable {parms : TextParms}

theorem bind_of_not_mem {front : List Char} (hfront : '$' ∉ front)
    (rest : List Char) : parms.bind (front ++ rest) = front ++ parms.bind rest := by
  induction front with
  | nil => rfl
  | cons c front ih =>
    rw [mem_cons, not_or] at hfront
    rw [cons_append, bind_cons (Ne.symm hfront.1), ih hfront.2, cons_append]

theorem bind_eq_self {text : List Char} (htext : '$' ∉ text) : parms.bind text = text := by
  have hbind := @bind_of_not_mem parms text htext []
  rwa [bind_nil, append_nil] at hbind

/-- The text begins with the same character, or with a quote for a dollar
sign. -/
theorem head?_bind (text : List Char) : (parms.bind text).head? =
    text.head?.map fun c => if c = '$' then '\x22' else c := by
  cases text with
  | nil => rw [bind_nil]; rfl
  | cons c rest =>
    by_cases hc : c = '$'
    · subst hc
      rw [bind_dollar]
      rfl
    · rw [bind_cons hc]
      simp [hc]

theorem head?_bind_eq_some_iff {c : Char} (hquote : c ≠ '\x22') (hdollar : c ≠ '$')
    (text : List Char) : (parms.bind text).head? = some c ↔ text.head? = some c := by
  rw [head?_bind, map_eq_some_iff]
  constructor
  · rintro ⟨d, hd, heq⟩
    split_ifs at heq
    · exact absurd heq.symm hquote
    · exact heq ▸ hd
  · intro hhead
    exact ⟨c, hhead, if_neg hdollar⟩

/-- A run of characters without a dollar sign, which ends at a quote if it ends
at a dollar sign. -/
theorem takeWhile_bind {p : Char → Bool} {text : List Char} (htext : '$' ∉ text.takeWhile p)
    (hquote : p '$' = false → p '\x22' = false) : (parms.bind text).takeWhile p = text.takeWhile p ∧
    (parms.bind text).dropWhile p = parms.bind (text.dropWhile p) := by
  induction text with
  | nil => simp [bind_nil]
  | cons c rest ih =>
    by_cases hc : p c = true
    · rw [takeWhile_cons_of_pos hc, mem_cons, not_or] at htext
      rw [bind_cons (Ne.symm htext.1), takeWhile_cons_of_pos hc, takeWhile_cons_of_pos hc,
        dropWhile_cons_of_pos hc, dropWhile_cons_of_pos hc, (ih htext.2).1, (ih htext.2).2]
      exact ⟨rfl, rfl⟩
    · rw [takeWhile_cons_of_neg hc, dropWhile_cons_of_neg hc]
      have hhead : ∀ d ∈ (parms.bind (c :: rest)).head?, p d = false := by
        intro d hd
        rw [head?_bind] at hd
        simp only [head?_cons, map_some, mem_def, some.injEq] at hd
        split_ifs at hd with hdollar
        · rw [← hd]
          exact hquote (by rw [← hdollar]; exact Bool.eq_false_iff.mpr hc)
        · rw [← hd]
          exact Bool.eq_false_iff.mpr hc
      cases hbind : parms.bind (c :: rest) with
      | nil => exact ⟨rfl, rfl⟩
      | cons d bound =>
        rw [hbind] at hhead
        have hd : ¬p d = true := by simp [hhead d rfl]
        rw [takeWhile_cons_of_neg hd, dropWhile_cons_of_neg hd]
        exact ⟨rfl, rfl⟩

end Substitution

section Items

variable {parms : TextParms} {c quote : Char} {rest value behind : List Char}

theorem readLiteral_bind (hquote : quote ≠ '$')
    (hread : readLiteral quote rest = some (value, behind))
    (hvalue : '$' ∉ value) (hbehind : quote = '\x22' → behind.head? ≠ some '$') :
    readLiteral quote (parms.bind rest) = some (value, parms.bind behind) := by
  fun_induction readLiteral quote rest generalizing value behind with
  | case1 => cases hread
  | case2 =>
    cases hread
    rw [bind_cons hquote, bind_nil]
    exact readLiteral_close (by simp)
  | case3 => cases hread
  | case4 c d rest hc ih =>
    obtain ⟨⟨tail, later⟩, hinner, ⟨⟩⟩ := map_eq_some_iff.mp hread
    rw [mem_cons, not_or] at hvalue
    rw [bind_cons (Ne.symm hvalue.1), readLiteral_cons hc, ih hinner hvalue.2 hbehind]
    rfl
  | case5 c rest hc ih =>
    obtain rfl : c = quote := not_not.mp hc
    obtain ⟨⟨tail, later⟩, hinner, ⟨⟩⟩ := map_eq_some_iff.mp hread
    rw [mem_cons, not_or] at hvalue
    rw [bind_cons hquote, bind_cons hquote, readLiteral_pair, ih hinner hvalue.2 hbehind]
    rfl
  | case6 c d rest hc hd =>
    obtain rfl : c = quote := not_not.mp hc
    cases hread
    rw [bind_cons hquote]
    refine readLiteral_close ?_
    rw [head?_bind, head?_cons, map_some]
    intro hhead
    split_ifs at hhead with hdollar
    · exact hbehind (some.inj hhead).symm (by rw [hdollar]; rfl)
    · exact hd (some.inj hhead)

variable {behind' : List Char} {token : Token} {later : List Token}

/-- A literal keeps its value only if it has no dollar sign in it or, between
double quotes, behind it. -/
theorem fits_of_readLiteral_bind (hquote : quote ≠ '$')
    (hread : readLiteral quote rest = some (value, behind))
    (hbound : readLiteral quote (parms.bind rest) = some (value, behind')) :
    '$' ∉ value ∧ (quote = '\x22' → behind.head? ≠ some '$') := by
  fun_induction readLiteral quote rest generalizing value behind with
  | case1 => cases hread
  | case2 =>
    cases hread
    simp
  | case3 => cases hread
  | case4 c d rest hc ih =>
    obtain ⟨⟨tail, later⟩, hinner, ⟨⟩⟩ := map_eq_some_iff.mp hread
    by_cases hdollar : c = '$'
    · subst hdollar
      rw [bind_dollar] at hbound
      have hfirst := eq_of_mem_head?_readLiteral hbound rfl
      cases hfirst
    · rw [bind_cons hdollar, readLiteral_cons hc] at hbound
      obtain ⟨⟨tail', later'⟩, hinner', ⟨⟩⟩ := map_eq_some_iff.mp hbound
      obtain ⟨hnot, hbehind⟩ := ih hinner hinner'
      refine ⟨?_, hbehind⟩
      rw [mem_cons, not_or]
      exact ⟨Ne.symm hdollar, hnot⟩
  | case5 c rest hc ih =>
    obtain rfl : c = quote := not_not.mp hc
    obtain ⟨⟨tail, later⟩, hinner, ⟨⟩⟩ := map_eq_some_iff.mp hread
    rw [bind_cons hquote, bind_cons hquote, readLiteral_pair] at hbound
    obtain ⟨⟨tail', later'⟩, hinner', ⟨⟩⟩ := map_eq_some_iff.mp hbound
    obtain ⟨hnot, hbehind⟩ := ih hinner hinner'
    refine ⟨?_, hbehind⟩
    rw [mem_cons, not_or]
    exact ⟨Ne.symm hquote, hnot⟩
  | case6 c d rest hc hd =>
    obtain rfl : c = quote := not_not.mp hc
    cases hread
    refine ⟨not_mem_nil, ?_⟩
    rintro rfl hdollar
    cases hdollar
    rw [bind_cons hquote, bind_dollar, readLiteral_pair] at hbound
    obtain ⟨⟨tail', later'⟩, -, heq'⟩ := map_eq_some_iff.mp hbound
    cases heq'

theorem readQuoted_bind (hread : readQuoted rest = some (value, behind)) (hvalue : '$' ∉ value) :
    readQuoted (parms.bind rest) = some (value, parms.bind behind) := by
  fun_induction readQuoted rest generalizing value behind with
  | case1 => cases hread
  | case2 rest =>
    cases hread
    rw [bind_cons (by decide), readQuoted, if_pos rfl]
  | case3 c rest hc hparen ih =>
    have hdollar : c ≠ '$' := by
      rintro rfl
      cases hparen
    rw [bind_cons hdollar, readQuoted, if_neg hc, if_pos hparen]
    exact ih hread hvalue
  | case4 c rest hc hparen ih =>
    obtain ⟨⟨tail, later⟩, hinner, ⟨⟩⟩ := map_eq_some_iff.mp hread
    rw [mem_cons, not_or] at hvalue
    rw [bind_cons (Ne.symm hvalue.1), readQuoted, if_neg hc, if_neg hparen, ih hinner hvalue.2]
    rfl

theorem fits_of_readQuoted_bind (hread : readQuoted rest = some (value, behind))
    (hbound : readQuoted (parms.bind rest) = some (value, behind')) : '$' ∉ value := by
  fun_induction readQuoted rest generalizing value behind with
  | case1 => cases hread
  | case2 rest =>
    cases hread
    exact not_mem_nil
  | case3 c rest hc hparen ih =>
    have hdollar : c ≠ '$' := by
      rintro rfl
      cases hparen
    rw [bind_cons hdollar, readQuoted, if_neg hc, if_pos hparen] at hbound
    exact ih hread hbound
  | case4 c rest hc hparen ih =>
    obtain ⟨⟨tail, later⟩, hinner, ⟨⟩⟩ := map_eq_some_iff.mp hread
    by_cases hdollar : c = '$'
    · subst hdollar
      rw [bind_dollar, readQuoted, if_neg (by decide), if_neg (by decide)] at hbound
      obtain ⟨read, -, heq'⟩ := map_eq_some_iff.mp hbound
      cases heq'
    · rw [bind_cons hdollar, readQuoted, if_neg hc, if_neg hparen] at hbound
      obtain ⟨⟨tail', later'⟩, hinner', ⟨⟩⟩ := map_eq_some_iff.mp hbound
      rw [mem_cons, not_or]
      exact ⟨Ne.symm hdollar, ih hinner hinner'⟩

/-- The values of the parameters do not end a line. -/
theorem dropWhile_line_bind (hvalues : ∀ value ∈ parms.values, '\n' ∉ value) (rest : List Char) :
    (parms.bind rest).dropWhile (· ≠ '\n') = parms.bind (rest.dropWhile (· ≠ '\n')) := by
  fun_induction TextParms.bind parms rest with
  | case1 => rw [dropWhile_nil, bind_nil]
  | case2 rest ih =>
    have hvalue : ∀ d ∈ (parms.bindParm (rest.takeWhile isDigit)).getD [],
        (decide (d ≠ '\n')) = true := by
      intro d hd
      refine decide_eq_true ?_
      rintro rfl
      exact bindParm_getD not_mem_nil hvalues _ hd
    have hdigits : ∀ d ∈ rest.takeWhile isDigit, (decide (d ≠ '\n')) = true := by
      intro d hd
      refine decide_eq_true ?_
      rintro rfl
      cases mem_takeWhile_imp hd
    have hrest := takeWhile_append_dropWhile (p := isDigit) (l := rest)
    rw [cons_append, dropWhile_cons_of_pos (by decide),
      dropWhile_append_of_pos hvalue, dropWhile_cons_of_pos (by decide), ih,
      dropWhile_cons_of_pos (by decide), ← hrest, dropWhile_append_of_pos hdigits, hrest]
  | case3 c rest hc ih =>
    by_cases hline : c = '\n'
    · subst hline
      rw [dropWhile_cons_of_neg (by decide), dropWhile_cons_of_neg (by decide), bind_cons hc]
    · have hpass : decide (c ≠ '\n') = true := decide_eq_true hline
      rw [dropWhile_cons, if_pos hpass, ih, dropWhile_cons, if_pos hpass]

theorem skipComment_bind (hrest : '$' ∉ rest.takeWhile (· ≠ '\n') ∨
    ∀ value ∈ parms.values, '\n' ∉ value) :
    skipComment (parms.bind rest) = parms.bind (skipComment rest) := by
  have hline : (parms.bind rest).dropWhile (· ≠ '\n') = parms.bind (rest.dropWhile (· ≠ '\n')) := by
    rcases hrest with htext | hvalues
    · exact (takeWhile_bind htext (by decide)).2
    · exact dropWhile_line_bind hvalues rest
  rw [skipComment, skipComment, hline]
  cases hdrop : rest.dropWhile (· ≠ '\n') with
  | nil => rw [tail_nil, bind_nil, tail_nil]
  | cons d later =>
    have hd : d = '\n' := by
      have hhead :=
        head?_dropWhile_not (fun d : Char => decide (d ≠ '\n')) rest
      rw [hdrop] at hhead
      simpa using hhead
    rw [hd, bind_cons (by decide), tail_cons, tail_cons]

/-- A comment without a dollar sign. -/
theorem skipCstyle_bind_of_not_mem (hskip : skipCstyle rest = some behind)
    (hrest : '$' ∉ rest.take (rest.length - behind.length)) :
    skipCstyle (parms.bind rest) = some (parms.bind behind) := by
  obtain ⟨body, rfl, hany⟩ := exists_skipCstyle_append hskip
  rw [length_append, Nat.add_sub_cancel, take_left] at hrest
  rw [bind_of_not_mem hrest]
  exact hany _

theorem skipCstyle_dropWhile_isDigit (rest : List Char) :
    skipCstyle (rest.dropWhile isDigit) = skipCstyle rest := by
  induction rest with
  | nil => rfl
  | cons c rest ih =>
    by_cases hc : c.isDigit = true
    · rw [dropWhile_cons_of_pos hc, ih, skipCstyle_cons]
      rintro rfl
      cases hc
    · rw [dropWhile_cons_of_neg hc]

/-- The values of the parameters do not close a comment. -/
theorem skipCstyle_bind_of_values (hvalues : ∀ value ∈ parms.values, skipCstyle value = none)
    (hskip : skipCstyle rest = some behind) :
    skipCstyle (parms.bind rest) = some (parms.bind behind) := by
  fun_induction TextParms.bind parms rest with
  | case1 => cases hskip
  | case2 rest ih =>
    have hvalue : skipCstyle ((parms.bindParm (rest.takeWhile isDigit)).getD []) = none :=
      bindParm_getD (motive := fun value => skipCstyle value = none) rfl hvalues _
    rw [cons_append, skipCstyle_cons (by simp),
      skipCstyle_append hvalue (by simp), skipCstyle_cons (by simp)]
    rw [skipCstyle_cons (by simp)] at hskip
    exact ih (by rw [skipCstyle_dropWhile_isDigit, hskip])
  | case3 c rest hc ih =>
    by_cases hclose : c = '*' ∧ rest.head? = some '/'
    · obtain ⟨rfl, hhead⟩ := hclose
      obtain ⟨later, rfl⟩ := head?_eq_some_iff.mp hhead
      cases hskip
      rw [bind_cons (by decide), skipCstyle, if_pos ⟨rfl, rfl⟩]
    · have hopen : c = '*' → rest.head? ≠ some '/' :=
        fun hc hhead => hclose ⟨hc, hhead⟩
      rw [skipCstyle_cons hopen] at hskip
      rw [skipCstyle_cons, ih hskip]
      intro hc hhead
      rw [head?_bind_eq_some_iff (by decide) (by decide)] at hhead
      exact hopen hc hhead

theorem lexNumber_bind (c : Char) (rest : List Char) : lexNumber c (parms.bind rest) =
    Prod.map id parms.bind (lexNumber c rest) := by
  have hdigits : ∀ text : List Char, _ ∧ _ := fun text =>
    @takeWhile_bind parms isDigit text
      (fun hmem => by cases mem_takeWhile_imp hmem) (by decide)
  by_cases hpoint : rest.head? = some '.'
  · obtain ⟨later, rfl⟩ := head?_eq_some_iff.mp hpoint
    rw [bind_cons (by decide), lexNumber, lexNumber, (hdigits later).1, (hdigits later).2]
    rfl
  · have hplain : ∀ text : List Char, text.head? ≠ some '.' → lexNumber c text =
        (.number (c :: text.takeWhile isDigit), text.dropWhile isDigit) := by
      intro text htext
      unfold lexNumber
      split
      · exact absurd rfl htext
      · rfl
    have hbound : (parms.bind rest).head? ≠ some '.' := by
      rwa [Ne, head?_bind_eq_some_iff (by decide) (by decide)]
    rw [hplain rest hpoint, hplain _ hbound, (hdigits rest).1, (hdigits rest).2]
    rfl

/-- A qualified name has no dollar sign, and a word that has none is kept. -/
theorem lexWord_bind (hword : ∀ text, (lexWord c rest).1 = .word text → '$' ∉ text) :
    lexWord c (parms.bind rest) = Prod.map id parms.bind (lexWord c rest) := by
  have hplain : ∀ text : List Char, _ ∧ _ := fun text =>
    @takeWhile_bind parms isPlain text (fun hmem => by cases mem_takeWhile_imp hmem) (by decide)
  by_cases hname : ∃ d later, rest.dropWhile isPlain = '.' :: d :: later ∧
      c.isAlpha = true ∧ d.isAlpha = true
  · obtain ⟨d, later, hrest, hc, hd⟩ := hname
    have hdollar : d ≠ '$' := by
      rintro rfl
      cases hd
    have hbound : (parms.bind rest).dropWhile isPlain = '.' :: d :: parms.bind later := by
      rw [(hplain rest).2, hrest, bind_cons (by decide), bind_cons hdollar]
    rw [lexWord_qualified hc hbound hd, lexWord_qualified hc hrest hd,
      (hplain rest).1, (hplain later).1, (hplain later).2]
    rfl
  · have hnot : ∀ d later, rest.dropWhile isPlain = '.' :: d :: later →
        ¬(c.isAlpha = true ∧ d.isAlpha = true) :=
      fun d later hrest halpha => hname ⟨d, later, hrest, halpha⟩
    have hnot' : ∀ d later, (parms.bind rest).dropWhile isPlain = '.' :: d :: later →
        ¬(c.isAlpha = true ∧ d.isAlpha = true) := by
      intro d later hbound halpha
      rw [(hplain rest).2] at hbound
      have hpoint : (rest.dropWhile isPlain).head? = some '.' := by
        rw [← @head?_bind_eq_some_iff parms _ (by decide) (by decide), hbound]
        rfl
      obtain ⟨tail, htail⟩ := head?_eq_some_iff.mp hpoint
      rw [htail, bind_cons (by decide), cons.injEq] at hbound
      have hhead : tail.head? = some d := by
        rw [← @head?_bind_eq_some_iff parms, hbound.2]
        · rfl
        · rintro rfl
          cases halpha.2
        · rintro rfl
          cases halpha.2
      obtain ⟨after, rfl⟩ := head?_eq_some_iff.mp hhead
      exact hnot d after htail halpha
    have hmem : '$' ∉ rest.takeWhile isWordChar := by
      have htext := hword _ (by rw [lexWord_word hnot])
      exact fun hmem => htext (mem_cons_of_mem c hmem)
    have hrun := @takeWhile_bind parms isWordChar rest hmem (by decide)
    rw [lexWord_word hnot, lexWord_word hnot', hrun.1, hrun.2]
    rfl

theorem lexSymbol_bind {tokens : List Token} (hitem : lexSymbol c rest = some (tokens, behind))
    (hcomment : tokens = [] → '$' ∉ commentText c rest behind ∨
    ∀ value ∈ parms.values, Harmless c value) :
    lexSymbol c (parms.bind rest) = some (tokens, parms.bind behind) := by
  cases rest with
  | nil =>
    cases hitem
    rw [bind_nil]
    rfl
  | cons d rest =>
    by_cases hd : d = '$'
    · subst hd
      have hpair : ∀ e, e = '$' ∨ e = '\x22' → isPair c e = false := by
        rintro e (rfl | rfl) <;> simp [isPair]
      rw [lexSymbol, if_neg (by simp), if_neg (by simp), if_neg (by simp [hpair])] at hitem
      cases hitem
      rw [bind_dollar, lexSymbol, if_neg (by simp), if_neg (by simp), if_neg (by simp [hpair])]
    · rw [lexSymbol] at hitem
      rw [bind_cons hd, lexSymbol]
      split_ifs at hitem ⊢ with hline hcstyle hpair
      · cases hitem
        obtain ⟨rfl, rfl⟩ := hline
        rw [skipComment_bind]
        refine (hcomment rfl).imp (fun hnot hmem => hnot ?_) id
        exact mem_cons_of_mem '-' hmem
      · obtain ⟨rfl, rfl⟩ := hcstyle
        obtain ⟨later, hskip, heq⟩ := map_eq_some_iff.mp hitem
        obtain ⟨rfl, rfl⟩ := Prod.mk.inj heq
        have hbound : skipCstyle (parms.bind rest) = some (parms.bind later) := by
          rcases hcomment rfl with hnot | hvalues
          · refine skipCstyle_bind_of_not_mem hskip fun hmem => hnot ?_
            have hle := (skipCstyle_suffix hskip).length_le
            rw [commentText, if_pos rfl, length_cons, Nat.succ_sub hle, take_succ_cons]
            exact mem_cons_of_mem '*' hmem
          · exact skipCstyle_bind_of_values hvalues hskip
        rw [hbound]
        rfl
      · cases hitem
        rfl
      · cases hitem
        rw [bind_cons hd]

variable {tokens : List Token}

/-- An item that is no parameter is read from the bound text as it is. -/
theorem lexItem_bind (hc : c ≠ '$') (hfits : Fits parms c rest)
    (hitem : lexItem c rest = some (tokens, behind)) :
    lexItem c (parms.bind rest) = some (tokens, parms.bind behind) := by
  rw [Fits, hitem] at hfits
  unfold lexItem at hitem ⊢
  split_ifs at hitem ⊢ with hspace hstart hdigit hquote hname hline
  · cases hitem
    rfl
  · cases hitem
    rw [lexWord_bind]
    · rfl
    · intro text htext
      rw [htext] at hfits
      refine hfits.resolve_right ?_
      rintro ⟨digits, value, rfl, -⟩
      exact hc (cons.inj (eq_cons_of_lexWord htext)).1.symm
  · cases hitem
    rw [lexNumber_bind]
    rfl
  · obtain ⟨⟨value, later⟩, hread, ⟨⟩⟩ := map_eq_some_iff.mp hitem
    rw [readLiteral_bind hc hread hfits.1 hfits.2]
    rfl
  · obtain ⟨⟨value, later⟩, hread, ⟨⟩⟩ := map_eq_some_iff.mp hitem
    rw [readQuoted_bind hread hfits]
    rfl
  · cases hitem
    subst hline
    rw [skipComment_bind]
    exact hfits.resolve_left hspace
  · refine lexSymbol_bind hitem ?_
    rintro rfl
    exact hfits.resolve_left hspace

/-- Only a word with a dollar sign at its beginning is replaced. -/
theorem token_of_mem (hc : c ≠ '$') (hitem : lexItem c rest = some (tokens, behind))
    (htoken : token ∈ tokens) : parms.token token = some token := by
  unfold TextParms.token
  split
  · have hword := eq_cons_of_lexWord (lexWord_of_mem hitem htoken)
    exact absurd (cons.inj hword).1.symm hc
  · rfl

theorem mapM_eq_some_self {α : Type} {f : α → Option α} {values : List α}
    (hf : ∀ value ∈ values, f value = some value) : values.mapM f = some values := by
  induction values with
  | nil => rfl
  | cons value values ih =>
    rw [forall_mem_cons] at hf
    rw [mapM_cons, hf.1, ih hf.2]
    rfl

theorem lexItem_dollar (rest : List Char) : lexItem '$' rest =
    some ([.word ('$' :: rest.takeWhile isWordChar)], rest.dropWhile isWordChar) := by
  have hword : lexWord '$' rest = (.word ('$' :: rest.takeWhile isWordChar),
      rest.dropWhile isWordChar) :=
    lexWord_word fun _ _ _ halpha => by cases halpha.1
  rw [lexItem, if_neg (by decide), if_pos (by decide), hword]

/-- The digits of a parameter are the whole word behind the dollar sign. -/
theorem takeWhile_isDigit (hrest : (rest.takeWhile isWordChar).all isDigit) :
    rest.takeWhile isDigit = rest.takeWhile isWordChar ∧
      rest.dropWhile isDigit = rest.dropWhile isWordChar := by
  induction rest with
  | nil => exact ⟨rfl, rfl⟩
  | cons c rest ih =>
    by_cases hc : isWordChar c = true
    · rw [takeWhile_cons_of_pos hc, all_cons, Bool.and_eq_true] at hrest
      rw [takeWhile_cons_of_pos hc, dropWhile_cons_of_pos hc, takeWhile_cons_of_pos hrest.1,
        dropWhile_cons_of_pos hrest.1, (ih hrest.2).1, (ih hrest.2).2]
      exact ⟨rfl, rfl⟩
    · have hdigit : ¬c.isDigit = true := fun hdigit => hc (by
        simp [isWordChar, isPlain, isAlphanum, hdigit])
      rw [takeWhile_cons_of_neg hc, dropWhile_cons_of_neg hc,
        takeWhile_cons_of_neg hdigit, dropWhile_cons_of_neg hdigit]
      exact ⟨rfl, rfl⟩

theorem token_dollar_eq_some_iff {digits : List Char} :
    parms.token (.word ('$' :: digits)) = some token ↔
      if digits ≠ [] ∧ digits.all isDigit then
        ∃ value, parms.values[digitsValue digits]? = some value ∧ token = .literal value
      else token = .word ('$' :: digits) := by
  rw [TextParms.token]
  split_ifs
  · simp [eq_comm]
  · simp [eq_comm]

/-- A parameter of the text, with its value between quotes. -/
theorem bind_parameter (hrest : (rest.takeWhile isWordChar).all isDigit)
    (hvalue : parms.values[digitsValue (rest.takeWhile isWordChar)]? = some value) :
    parms.bind ('$' :: rest) = '\x22' ::
    (value ++ '\x22' :: parms.bind (rest.dropWhile isWordChar)) := by
  rw [bind_dollar, (takeWhile_isDigit hrest).1,
    (takeWhile_isDigit hrest).2, bindParm_of_getElem? hvalue]
  rfl

theorem head?_dropWhile_ne_dollar (rest : List Char) :
    (rest.dropWhile isWordChar).head? ≠ some '$' := by
  intro hhead
  have hnot := head?_dropWhile_not isWordChar rest
  rw [hhead] at hnot
  cases hnot

theorem mapM_token (hc : c ≠ '$') (hitem : lexItem c rest = some (tokens, behind)) :
    tokens.mapM parms.token = some tokens :=
  mapM_eq_some_self fun _ htoken => token_of_mem hc hitem htoken

/-- An item that fits gives its tokens, with the value of a parameter. -/
theorem lex_bind_item (hfits : Fits parms c rest) (hitem : lexItem c rest = some (tokens, behind)) :
    ∃ images, tokens.mapM parms.token = some images ∧
    lex (parms.bind (c :: rest)) = images ++ lex (parms.bind behind) := by
  by_cases hc : c = '$'
  · subst hc
    rw [Fits, hitem] at hfits
    rw [lexItem_dollar] at hitem
    cases hitem
    rcases hfits with hnot | ⟨digits, value, htext, hne, hall, hvalue, hclean, hbehind⟩
    · exact absurd mem_cons_self hnot
    · cases htext
      have hclose : (parms.bind (rest.dropWhile isWordChar)).head? ≠ some '\x22' := by
        rw [head?_bind]
        intro hhead
        obtain ⟨d, hd, heq⟩ := map_eq_some_iff.mp hhead
        split_ifs at heq with hdollar
        · exact head?_dropWhile_ne_dollar rest (hdollar ▸ hd)
        · exact hbehind (heq ▸ hd)
      have htoken : parms.token (.word ('$' :: rest.takeWhile isWordChar)) =
          some (.literal value) := by
        rw [token_dollar_eq_some_iff, if_pos ⟨hne, hall⟩]
        exact ⟨value, hvalue, rfl⟩
      refine ⟨[.literal value], ?_, ?_⟩
      · rw [mapM_cons, htoken]
        rfl
      · rw [bind_parameter hall hvalue]
        refine lex_of_some ?_
        rw [lexItem, if_neg (by decide), if_neg (by decide), if_neg (by decide), if_pos (.inl rfl),
          readLiteral_append hclean, readLiteral_close hclose]
        simp
  · refine ⟨tokens, mapM_token hc hitem, ?_⟩
    rw [bind_cons hc]
    exact lex_of_some (lexItem_bind hc hfits hitem)

/-- The first token of a text that begins with a quote. -/
theorem exists_readLiteral_of_lex (hquote : quote = '\x22' ∨ quote = '\x27')
    (hlex : lex (quote :: rest) = token :: later) :
    ∃ value behind, readLiteral quote rest = some (value, behind) ∧ token = .literal value := by
  have hitem : lexItem quote rest = (readLiteral quote rest).map fun read =>
      ([.literal read.1], read.2) := by
    rcases hquote with rfl | rfl <;> rfl
  cases hread : readLiteral quote rest with
  | none =>
    rw [hread] at hitem
    rw [lex_of_none hitem] at hlex
    cases hlex
  | some read =>
    rw [hread] at hitem
    rw [lex_of_some hitem] at hlex
    exact ⟨read.1, read.2, rfl, (cons.inj hlex).1.symm⟩

theorem dollar_not_mem_takeWhile_bind (rest : List Char) :
    '$' ∉ (parms.bind rest).takeWhile isWordChar := by
  fun_induction TextParms.bind parms rest with
  | case1 => exact not_mem_nil
  | case2 rest ih =>
    exact not_mem_nil
  | case3 c rest hc ih =>
    by_cases hword : isWordChar c = true
    · rw [takeWhile_cons_of_pos hword, mem_cons, not_or]
      exact ⟨Ne.symm hc, ih⟩
    · rw [takeWhile_cons_of_neg hword]
      exact not_mem_nil

theorem Clean.harmless (hvalue : Clean value) (c : Char) : Harmless c value := by
  unfold Harmless
  split_ifs
  · exact hvalue.2.2
  · exact hvalue.2.1

/-- A parameter that gives its value as its token. -/
theorem fits_of_lex_parameter (hvalues : ∀ value ∈ parms.values, Clean value)
    (htoken : parms.token (.word ('$' :: rest.takeWhile isWordChar)) = some token)
    (hlex : lex (parms.bind ('$' :: rest)) = token :: later) : Fits parms '$' rest := by
  rw [Fits, lexItem_dollar]
  have hbound := hlex
  rw [bind_dollar] at hbound
  obtain ⟨read, -, -, rfl⟩ := exists_readLiteral_of_lex (.inl rfl) hbound
  rw [token_dollar_eq_some_iff] at htoken
  split_ifs at htoken with hdigits
  obtain ⟨value, hvalue, ⟨⟩⟩ := htoken
  have hclean := (hvalues _ (mem_of_getElem? hvalue)).1
  refine .inr ⟨_, _, rfl, hdigits.1, hdigits.2, hvalue, hclean, ?_⟩
  intro hbehind
  obtain ⟨tail, htail⟩ := head?_eq_some_iff.mp hbehind
  rw [bind_parameter hdigits.2 hvalue, htail, bind_cons (by decide)] at hlex
  -- the quote behind the parameter would belong to the value
  obtain ⟨value', behind', hread, heq'⟩ :=
    exists_readLiteral_of_lex (.inl rfl) hlex
  cases heq'
  rw [readLiteral_append hclean, readLiteral_pair, map_map] at hread
  obtain ⟨rest', -, hpair⟩ := map_eq_some_iff.mp hread
  simp at hpair

/-- An item that gives its own tokens. -/
theorem fits_of_lex_item (hc : c ≠ '$') (hvalues : ∀ value ∈ parms.values, Clean value)
    (hitem : lexItem c rest = some (tokens, behind))
    (hlex : lex (c :: parms.bind rest) = tokens ++ later) : Fits parms c rest := by
  rw [Fits, hitem]
  have hharmless : ∀ value ∈ parms.values, Harmless c value :=
    fun value hmem => (hvalues value hmem).harmless c
  unfold lexItem at hitem
  split_ifs at hitem with hspace hstart hdigit hquote hname hline
  · cases hitem
    exact .inl hspace
  · cases hitem
    rcases lexWord_token c rest with ⟨text, htext⟩ | ⟨text, htext⟩
    · have hbound : lexItem c (parms.bind rest) = some ([(lexWord c (parms.bind rest)).1],
          (lexWord c (parms.bind rest)).2) := by
        rw [lexItem, if_neg hspace, if_pos hstart]
      rw [lex_of_some hbound, htext] at hlex
      have hword := eq_cons_of_lexWord (cons.inj hlex).1
      rw [htext]
      left
      rw [hword, mem_cons, not_or]
      exact ⟨Ne.symm hc, dollar_not_mem_takeWhile_bind rest⟩
    · rw [htext]
      trivial
  · cases hitem
    obtain ⟨text, htext⟩ := lexNumber_token c rest
    rw [htext]
    trivial
  · obtain ⟨⟨value, later'⟩, hread, ⟨⟩⟩ := map_eq_some_iff.mp hitem
    obtain ⟨value', behind', hbound, ⟨⟩⟩ :=
      exists_readLiteral_of_lex hquote hlex
    exact fits_of_readLiteral_bind hc hread hbound
  · obtain ⟨⟨value, later'⟩, hread, ⟨⟩⟩ := map_eq_some_iff.mp hitem
    subst hname
    have hbound : lexItem '\x60' (parms.bind rest) = (readQuoted (parms.bind rest)).map fun read =>
          ([.quoted read.1], read.2) := rfl
    cases hquoted : readQuoted (parms.bind rest) with
    | none =>
      rw [hquoted] at hbound
      rw [lex_of_none hbound] at hlex
      cases hlex
    | some read =>
      rw [hquoted] at hbound
      rw [lex_of_some hbound] at hlex
      obtain rfl := Token.quoted.inj (cons.inj hlex).1
      exact fits_of_readQuoted_bind hread hquoted
  · cases hitem
    exact .inr (.inr hharmless)
  · rcases lexSymbol_tokens hitem with rfl | ⟨text, rfl⟩
    · exact .inr (.inr hharmless)
    · trivial

theorem fits_of_lex_bind {images : List Token} (hvalues : ∀ value ∈ parms.values, Clean value)
    (hitem : lexItem c rest = some (tokens, behind))
    (himages : tokens.mapM parms.token = some images)
    (hlex : lex (parms.bind (c :: rest)) = images ++ later) : Fits parms c rest := by
  by_cases hc : c = '$'
  · subst hc
    rw [lexItem_dollar] at hitem
    cases hitem
    cases htoken : parms.token (.word ('$' :: rest.takeWhile isWordChar)) with
    | none =>
      rw [mapM_cons, htoken] at himages
      cases himages
    | some token =>
      rw [mapM_cons, htoken] at himages
      cases himages
      exact fits_of_lex_parameter hvalues htoken hlex
  · rw [mapM_token hc hitem] at himages
    cases himages
    rw [bind_cons hc] at hlex
    exact fits_of_lex_item hc hvalues hitem hlex

end Items

section Texts

variable {parms : TextParms} {c : Char} {rest behind text : List Char} {tokens : List Token}

theorem mapM_append_eq_some {α β : Type} {f : α → Option β} {xs ys : List α} {image : List β}
    (himage : (xs ++ ys).mapM f = some image) :
    ∃ first second, xs.mapM f = some first ∧ ys.mapM f = some second ∧ image = first ++ second := by
  rw [mapM_append] at himage
  obtain ⟨first, hfirst, himage⟩ := bind_eq_some_iff.mp himage
  obtain ⟨second, hsecond, himage⟩ := bind_eq_some_iff.mp himage
  exact ⟨first, second, hfirst, hsecond, (some.inj himage).symm⟩

/-- Behind an item that fits, the text is bound on its own. -/
theorem faithful_item_iff (hfits : Fits parms c rest)
    (hitem : lexItem c rest = some (tokens, behind)) :
    parms.Faithful (c :: rest) (parms.bind (c :: rest)) ↔
      parms.Faithful behind (parms.bind behind) := by
  obtain ⟨images, himages, hlex⟩ := lex_bind_item hfits hitem
  rw [TextParms.Faithful, TextParms.Faithful, lex_of_some hitem, hlex]
  constructor
  · intro himage
    obtain ⟨first, second, hfirst, hsecond, heq⟩ := mapM_append_eq_some himage
    rw [himages] at hfirst
    cases hfirst
    rw [hsecond, append_cancel_left heq]
  · intro himage
    rw [mapM_append, himages, himage]
    rfl

theorem faithful_of_bindable (htext : Bindable parms text) :
    parms.Faithful text (parms.bind text) := by
  induction text using item_induction with
  | nil =>
    rw [bind_nil, TextParms.Faithful, lex_nil]
    rfl
  | none c rest hitem =>
    have hfits := (everyItem_of_none hitem).mp htext
    have hnot : '$' ∉ c :: rest := by
      rw [mem_cons, not_or]
      rw [Fits, hitem] at hfits
      refine ⟨?_, hfits⟩
      rintro rfl
      cases hitem
    rw [bind_eq_self hnot, TextParms.Faithful, lex_of_none hitem]
    rfl
  | some c rest tokens behind hitem ih =>
    obtain ⟨hfits, hbehind⟩ := (everyItem_of_some hitem).mp htext
    exact (faithful_item_iff hfits hitem).mpr (ih hbehind)

theorem bindable_of_faithful (hvalues : ∀ value ∈ parms.values, Clean value)
    (hcomplete : Complete text) (hfaithful : parms.Faithful text (parms.bind text)) :
    Bindable parms text := by
  induction text using item_induction with
  | nil => exact everyItem_nil
  | none c rest hitem =>
    have hsome := (everyItem_of_none hitem).mp hcomplete
    rw [hitem] at hsome
    cases hsome
  | some c rest tokens behind hitem ih =>
    have hbehind := ((everyItem_of_some hitem).mp hcomplete).2
    have hfits : Fits parms c rest := by
      have himage := hfaithful
      rw [TextParms.Faithful, lex_of_some hitem] at himage
      obtain ⟨images, later, himages, -, hlex⟩ := mapM_append_eq_some himage
      exact fits_of_lex_bind hvalues hitem himages hlex
    refine (everyItem_of_some hitem).mpr ⟨hfits, ih hbehind ?_⟩
    exact (faithful_item_iff hfits hitem).mp hfaithful

end Texts

end BoundTokens

open BoundTokens

/-- The bound query is the prepared text with literals for its parameters if
every item of the text fits, and only then if the values have neither quotes nor
ends of comments and the text leaves nothing open. -/
theorem handleBind_faithful (parms : TextParms) {text bound : List Char}
    (hbound : handleBind parms (some text) = .ok bound) :
    (Bindable parms text → parms.Faithful text bound) ∧
      ((∀ value ∈ parms.values, Clean value) → Complete text →
        parms.Faithful text bound → Bindable parms text) := by
  obtain rfl := bindLoop_eq_ok hbound
  exact ⟨faithful_of_bindable, bindable_of_faithful⟩

/-- `a=$0` with the parameter `x`. -/
theorem handleBind_faithful_parameter : TextParms.Faithful ⟨[['x']], by decide⟩ ['a', '=', '$', '0']
    ['a', '=', '\x22', 'x', '\x22'] := by
  have hbound : handleBind ⟨[['x']], by decide⟩ (some ['a', '=', '$', '0']) =
      .ok ['a', '=', '\x22', 'x', '\x22'] := by
    simp [handleBind, bindLoop, maxStrConst, TextParms.bindParm,
      show atoi ['0'] = 0 by decide, Except.map]
  refine (handleBind_faithful _ hbound).1 ?_
  have hword : lexItem 'a' ['=', '$', '0'] = some ([.word ['a']], ['=', '$', '0']) := by decide
  have hsymbol : lexItem '=' ['$', '0'] = some ([.symbol ['=']], ['$', '0']) := by decide
  have hparm : lexItem '$' ['0'] = some ([.word ['$', '0']], []) := by decide
  refine (everyItem_of_some hword).mpr ⟨.inl (by decide), ?_⟩
  refine (everyItem_of_some hsymbol).mpr ⟨trivial, ?_⟩
  refine (everyItem_of_some hparm).mpr ⟨.inr ?_, everyItem_nil⟩
  exact ⟨['0'], ['x'], by decide, by decide, by decide, by decide, by decide, by decide⟩

/-- A parameter with quotes becomes several tokens, and the dollar signs of a
literal and of a function name are replaced. -/
theorem bound_tokens_differ : (∃ parms bound, handleBind parms (some ['$', '0']) = .ok bound ∧
    ¬parms.Faithful ['$', '0'] bound) ∧
    (∃ parms bound, handleBind parms (some ['\x27', '$', '\x27']) = .ok bound ∧
    ¬parms.Faithful ['\x27', '$', '\x27'] bound) ∧
    ∃ parms bound, handleBind parms (some ['$', '$', 'f']) = .ok bound ∧ ¬parms.Faithful ['$', '$',
    'f'] bound := by
  refine ⟨⟨⟨[['\x22', '=', '\x22']], by decide⟩,
    ['\x22', '\x22', '=', '\x22', '\x22'], ?_, ?_⟩, ⟨⟨[['x']], by decide⟩,
    ['\x27', '\x22', 'x', '\x22', '\x27'], ?_, ?_⟩, ⟨[['x']], by decide⟩,
    ['\x22', 'x', '\x22', '\x22', 'x', '\x22', 'f'], ?_, ?_⟩
  · simp [handleBind, bindLoop, maxStrConst, TextParms.bindParm,
      show atoi ['0'] = 0 by decide, Except.map]
  · have htext : lexItem '$' ['0'] = some ([.word ['$', '0']], []) := by decide
    have hliteral : lexItem '\x22' ['\x22', '=', '\x22', '\x22'] =
        some ([.literal []], ['=', '\x22', '\x22']) := by decide
    rw [TextParms.Faithful, lex_of_some htext, lex_nil, lex_of_some hliteral]
    simp [TextParms.token, digitsValue]
  · simp [handleBind, bindLoop, maxStrConst, TextParms.bindParm,
      show atoi [] = 0 by decide, Except.map]
  · have htext : lexItem '\x27' ['$', '\x27'] = some ([.literal ['$']], []) := by decide
    have hliteral : lexItem '\x27' ['\x22', 'x', '\x22', '\x27'] =
        some ([.literal ['\x22', 'x', '\x22']], []) := by decide
    rw [TextParms.Faithful, lex_of_some htext, lex_nil, lex_of_some hliteral]
    simp [TextParms.token]
  · simp [handleBind, bindLoop, maxStrConst, TextParms.bindParm,
      show atoi [] = 0 by decide, Except.map]
  · have htext : lexItem '$' ['$', 'f'] = some ([.word ['$', '$', 'f']], []) := by decide
    have hliteral : lexItem '\x22' ['x', '\x22', '\x22', 'x', '\x22', 'f'] =
        some ([.literal ['x', '\x22', 'x']], ['f']) := by decide
    rw [TextParms.Faithful, lex_of_some htext, lex_nil, lex_of_some hliteral]
    simp [TextParms.token]

end Octo
