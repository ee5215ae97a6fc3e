/-
The function $SELECT of the M language.  Its arguments are conditions with
values; its value is the one with the first condition that is true.  The
arguments are expressions, so they may hold the function again.
-/
import Octo.MExpression

namespace MExpression

open List Option MExpression.Expr
open Bool hiding not_or

/-- What stands behind an argument. -/
def endsArgument (c : Char) : Bool :=
  c = ',' || c = ':' || c = ')'

/-- The arguments of $SELECT, from the opening parenthesis to the end of the
text: each a condition and a value. -/
def readClauses : Nat → List Char → Option (List (List Char × List Char))
  | 0, _ => none
  | fuel + 1, text =>
    match scanClosed endsArgument 0 false text with
    | (condition, ':' :: rest) =>
      match scanClosed endsArgument 0 false rest with
      | (value, ',' :: rest) =>
        (readClauses fuel rest).map ((condition, value) :: ·)
      | (value, [')']) => some [(condition, value)]
      | _ => none
    | _ => none

def renderClauses (last : List Char × List Char) : List (List Char × List Char) → List Char
  | [] => last.1 ++ ':' :: (last.2 ++ [')'])
  | clause :: rest =>
    clause.1 ++ ':' :: (clause.2 ++ ',' :: renderClauses last rest)

section Closed

variable {stop : Char → Bool}

variable {depth : Nat} {quoted : Bool}

variable {text : List Char}

theorem isClosed_append (htext : isClosed stop depth quoted text = true) (rest : List Char) :
    isClosed stop depth quoted (text ++ rest) = isClosed stop 0 false rest := by
  induction text generalizing depth quoted with
  | nil =>
    simp only [isClosed, and_eq_true, beq_iff_eq, not_eq_true'] at htext
    rw [nil_append, htext.1, htext.2]
  | cons c text ih =>
    rw [isClosed] at htext
    rw [cons_append, isClosed]
    split_ifs at htext ⊢ with hquote hquoted hopen hdepth hclose
    · exact ih htext
    · exact ih htext
    · exact ih htext
    · rw [and_eq_true] at htext
      rw [htext.1, Bool.true_and]
      exact ih htext.2
    · exact ih htext
    · exact ih htext

/-- Inside of parentheses a closed text is closed for other characters too. -/
theorem isClosed_inside {other : Char → Bool} (hother : other ')' = true)
    (htext : isClosed other depth quoted text = true)
    (outer : Nat) (rest : List Char) : isClosed stop (depth + outer + 1) quoted (text ++ rest) =
    isClosed stop (outer + 1) false rest := by
  induction text generalizing depth quoted with
  | nil =>
    simp only [isClosed, and_eq_true, beq_iff_eq, not_eq_true'] at htext
    rw [nil_append, htext.1, htext.2, Nat.zero_add]
  | cons c text ih =>
    rw [isClosed] at htext
    rw [cons_append, isClosed, if_neg (Nat.succ_ne_zero _)]
    split_ifs at htext ⊢ with hquote hquoted hopen hclose hdepth hdepth
    · exact ih htext
    · exact ih htext
    · rw [← ih htext]
      congr 1
      omega
    · simp [hclose, hother] at htext
    · rw [← ih htext]
      congr 1
      omega
    · rw [and_eq_true] at htext
      rw [hdepth, ← ih htext.2]
    · exact ih htext

theorem isClosed_quoted (htext : '"' ∉ text) (rest : List Char) :
    isClosed stop depth true (text ++ rest) = isClosed stop depth true rest := by
  induction text with
  | nil => rfl
  | cons c text ih =>
    rw [mem_cons, not_or] at htext
    rw [cons_append, isClosed, if_neg (Ne.symm htext.1), if_pos rfl, ih htext.2]

theorem isClosed_symbol (op : BinaryOp) (depth : Nat) (rest : List Char) :
    isClosed stop (depth + 1) false (op.symbol ++ rest) = isClosed stop (depth + 1) false rest := by
  cases op <;> simp [BinaryOp.symbol, isClosed]

variable {expr : Expr}

/-- Inside of parentheses an expression is closed. -/
theorem isClosed_render (hexpr : expr.wellFormed = true) (depth : Nat)
    (rest : List Char) : isClosed stop (depth + 1) false (expr.render ++ rest) =
    isClosed stop (depth + 1) false rest := by
  induction expr generalizing depth rest with
  | literal text =>
    have htext : '"' ∉ text ∧ '\n' ∉ text := by simpa [wellFormed] using hexpr
    rw [render, append_assoc, cons_append, isClosed,
      if_pos rfl, Bool.not_false, isClosed_quoted htext.1]
    simp [isClosed]
  | reference text =>
    rw [wellFormed, and_eq_true] at hexpr
    have hclosed : isClosed stop (0 + depth + 1) false (text ++ rest) =
        isClosed stop (depth + 1) false rest :=
      isClosed_inside rfl hexpr.2 depth rest
    rwa [Nat.zero_add] at hclosed
  | paren expr ih =>
    rw [render, append_assoc, cons_append]
    simp only [isClosed, Char.reduceEq, if_false, false_eq_true,
      if_true, ih hexpr, cons_append, nil_append]
    simp
  | unary op operand ih =>
    rw [wellFormed, and_eq_true] at hexpr
    rw [render, cons_append]
    cases op <;> simp [UnaryOp.symbol, isClosed, ih hexpr.2]
  | binary op left right ihLeft ihRight =>
    rw [wellFormed, and_eq_true, and_eq_true] at hexpr
    rw [render, append_assoc, ihLeft hexpr.1, append_assoc, isClosed_symbol, ihRight hexpr.2.2]

theorem isClosed_paren (hexpr : expr.wellFormed = true) :
    isClosed stop 0 false ('(' :: (expr.render ++ [')'])) = true := by
  have hrender : isClosed stop 1 false (expr.render ++ [')']) = isClosed stop 1 false [')'] :=
    isClosed_render hexpr 0 [')']
  simpa [isClosed] using hrender

end Closed

section Clauses

/-- Both parts of a clause can stand in an argument list. -/
def isClause (clause : List Char × List Char) : Bool :=
  isClosed endsArgument 0 false clause.1 && isClosed endsArgument 0 false clause.2

theorem scanClosed_argument {text : List Char} {c : Char}
    (htext : isClosed endsArgument 0 false text = true) (hc : endsArgument c = true)
    (rest : List Char) :
    scanClosed endsArgument 0 false (text ++ c :: rest) = (text, c :: rest) := by
  refine scanClosed_append htext ?_
  rintro _ ⟨⟩
  refine ⟨?_, ?_, hc⟩ <;> rintro rfl <;> simp [endsArgument] at hc

variable {last : List Char × List Char} {clauses : List (List Char × List Char)}

theorem readClauses_renderClauses (hlast : isClause last = true)
    (hclauses : ∀ clause ∈ clauses, isClause clause = true) {fuel : Nat}
    (hfuel : clauses.length < fuel) : readClauses fuel (renderClauses last clauses) =
    some (clauses ++ [last]) := by
  obtain ⟨fuel, rfl⟩ : ∃ less, fuel = less + 1 := ⟨fuel - 1, by omega⟩
  induction clauses generalizing fuel with
  | nil =>
    rw [isClause, and_eq_true] at hlast
    have hcondition := scanClosed_argument (c := ':') hlast.1 rfl (last.2 ++ [')'])
    have hvalue := scanClosed_argument (c := ')') hlast.2 rfl []
    simp [renderClauses, readClauses, hcondition, hvalue]
  | cons clause rest ih =>
    rw [forall_mem_cons, isClause, and_eq_true] at hclauses
    rw [length_cons] at hfuel
    obtain ⟨fuel, rfl⟩ : ∃ less, fuel = less + 1 := ⟨fuel - 1, by omega⟩
    have hcondition := scanClosed_argument (c := ':') hclauses.1.1 rfl
      (clause.2 ++ ',' :: renderClauses last rest)
    have hvalue := scanClosed_argument (c := ',') hclauses.1.2 rfl (renderClauses last rest)
    simp [renderClauses, readClauses.eq_2 _ (fuel + 1), hcondition, hvalue,
      ih hclauses.2 fuel (by omega)]

theorem length_lt_renderClauses (last : List Char × List Char)
    (clauses : List (List Char × List Char)) :
    clauses.length < (renderClauses last clauses).length := by
  induction clauses with
  | nil =>
    simp only [renderClauses, length_append, length_cons]
    omega
  | cons clause rest ih =>
    simp only [renderClauses, length_append, length_cons]
    omega

/-- Inside of the parentheses of the function the arguments are closed. -/
theorem isClosed_renderClauses (hlast : isClause last = true)
    (hclauses : ∀ clause ∈ clauses, isClause clause = true) (stop : Char → Bool) :
    isClosed stop 1 false (renderClauses last clauses) = true := by
  have hinside : ∀ text : List Char, isClosed endsArgument 0 false text = true → ∀ rest,
      isClosed stop 1 false (text ++ rest) = isClosed stop 1 false rest :=
    fun text htext rest => isClosed_inside rfl htext 0 rest
  induction clauses with
  | nil =>
    rw [isClause, and_eq_true] at hlast
    simp [renderClauses, hinside _ hlast.1, hinside _ hlast.2, isClosed]
  | cons clause rest ih =>
    rw [forall_mem_cons, isClause, and_eq_true] at hclauses
    simp [renderClauses, hinside _ hclauses.1.1, hinside _ hclauses.1.2, isClosed, ih hclauses.2]

end Clauses

section Values

variable {α : Type*} (ops : Operators α) (isTrue : α → Bool)

/-- The value of an expression whose references may have none. -/
def Expr.evalWith (value : List Char → Option α) : Expr → Option α
  | literal text => some (ops.literal text)
  | reference text => value text
  | paren expr => expr.evalWith value
  | unary op operand => do
    some (ops.unary op (← operand.evalWith value))
  | binary op left right => do
    some (ops.binary op (← left.evalWith value) (← right.evalWith value))

/-- The value with the first condition that is true.  It is an error if there
is none. -/
def evalClauses (eval : List Char → Option α) : List (List Char × List Char) → Option α
  | [] => none
  | (condition, value) :: rest => do
    if isTrue (← eval condition) then eval value else evalClauses eval rest

/-- The value of a text in which $SELECT stands within itself less than
`depth` times. -/
def evalSelect : Nat → List Char → Option α
  | 0, _ => none
  | depth + 1, text =>
    (parse text).bind <| Expr.evalWith ops fun text =>
      match text with
      | '$' :: 'S' :: '(' :: rest =>
        (readClauses rest.length rest).bind (evalClauses isTrue (evalSelect depth))
      | text => some (ops.reference text)

def HasValue (text : List Char) (value : α) : Prop :=
  ∃ least, ∀ depth ≥ least, evalSelect ops isTrue depth text = some value

variable {ops isTrue}

variable {text : List Char} {clauses : List (List Char × List Char)}

theorem HasValue.unique {first second : α} (hfirst : HasValue ops isTrue text first)
    (hsecond : HasValue ops isTrue text second) : first = second := by
  obtain ⟨least, hleast⟩ := hfirst
  obtain ⟨other, hother⟩ := hsecond
  have heq := (hleast _ (Nat.le_max_left least other)).symm.trans
    (hother _ (Nat.le_max_right least other))
  exact some.inj heq

theorem HasValue.of_succ {value : α} (least : Nat) (hvalue : ∀ depth ≥ least,
      evalSelect ops isTrue (depth + 1) text = some value) :
    HasValue ops isTrue text value := by
  refine ⟨least + 1, fun depth hdepth => ?_⟩
  obtain ⟨depth, rfl⟩ : ∃ less, depth = less + 1 := ⟨depth - 1, by omega⟩
  exact hvalue depth (by omega)

theorem hasValue_literal (htext : '"' ∉ text ∧ '\n' ∉ text) :
    HasValue ops isTrue (literal text).render (ops.literal text) := by
  apply HasValue.of_succ 0
  intro depth _
  have hliteral : (literal text).wellFormed = true := by
    simpa [wellFormed] using htext
  rw [evalSelect, parse_render hliteral]
  rfl

theorem hasValue_reference {c : Char} (htext : (reference (c :: text)).wellFormed = true)
    (hc : c ≠ '$') : HasValue ops isTrue (c :: text) (ops.reference (c :: text)) := by
  apply HasValue.of_succ 0
  intro depth _
  have hparse : parse (c :: text) = some (.reference (c :: text)) :=
    parse_render htext
  rw [evalSelect, hparse, bind_some, evalWith]
  split
  · rename_i heq
    exact absurd (List.cons.inj heq).1 hc
  · rfl

theorem hasValue_binary {first second : Expr} {x y : α} (op : BinaryOp)
    (hleft : first.wellFormed = true) (hright : second.wellFormed = true)
    (hatom : second.isAtom = true) (hfirst : HasValue ops isTrue first.render x)
    (hsecond : HasValue ops isTrue second.render y) :
    HasValue ops isTrue (binary op first second).render (ops.binary op x y) := by
  obtain ⟨least, hleast⟩ := hfirst
  obtain ⟨other, hother⟩ := hsecond
  apply HasValue.of_succ (least + other)
  intro depth hdepth
  have hx := hleast (depth + 1) (by omega)
  have hy := hother (depth + 1) (by omega)
  have hwell : (binary op first second).wellFormed = true := by
    simp [wellFormed, hatom, hleft, hright]
  rw [evalSelect, parse_render hleft, bind_some] at hx
  rw [evalSelect, parse_render hright, bind_some] at hy
  rw [evalSelect, parse_render hwell, bind_some]
  simp [evalWith, hx, hy]

theorem hasValue_unary {operand : Expr} {x : α} (op : UnaryOp)
    (hoperand : operand.wellFormed = true) (hatom : operand.isAtom = true)
    (hvalue : HasValue ops isTrue operand.render x) :
    HasValue ops isTrue (unary op operand).render (ops.unary op x) := by
  obtain ⟨least, hleast⟩ := hvalue
  apply HasValue.of_succ least
  intro depth hdepth
  have hx := hleast (depth + 1) (by omega)
  have hwell : (unary op operand).wellFormed = true := by
    simp [wellFormed, hatom, hoperand]
  rw [evalSelect, parse_render hoperand, bind_some] at hx
  rw [evalSelect, parse_render hwell, bind_some]
  simp [evalWith, hx]

theorem hasValue_paren {expr : Expr} {x : α} (hexpr : expr.wellFormed = true)
    (hvalue : HasValue ops isTrue expr.render x) :
    HasValue ops isTrue (paren expr).render x := by
  obtain ⟨least, hleast⟩ := hvalue
  apply HasValue.of_succ least
  intro depth hdepth
  have hx := hleast (depth + 1) (by omega)
  have hwell : (paren expr).wellFormed = true := hexpr
  rw [evalSelect, parse_render hexpr, bind_some] at hx
  rw [evalSelect, parse_render hwell, bind_some, evalWith, hx]

def ClauseHasValue (ops : Operators α) (isTrue : α → Bool)
    (clause : List Char × List Char) (value : α × α) : Prop :=
  HasValue ops isTrue clause.1 value.1 ∧ HasValue ops isTrue clause.2 value.2

variable {values : List (α × α)}

theorem evalClauses_eq (hvalues : List.Forall₂ (ClauseHasValue ops isTrue) clauses values) :
    ∃ least, ∀ depth ≥ least, evalClauses isTrue (evalSelect ops isTrue depth) clauses =
    (values.find? (isTrue ·.1)).map (·.2) := by
  induction hvalues with
  | nil => exact ⟨0, fun depth _ => rfl⟩
  | @cons clause value clauses values hvalue _ ih =>
    obtain ⟨⟨least, hleast⟩, ⟨other, hother⟩⟩ := hvalue
    obtain ⟨rest, hrest⟩ := ih
    refine ⟨least + other + rest, fun depth hdepth => ?_⟩
    have hcondition := hleast depth (by omega)
    have hresult := hother depth (by omega)
    have hbehind := hrest depth (by omega)
    rw [evalClauses, hcondition]
    by_cases htrue : isTrue value.1 = true
    · simp [htrue, hresult]
    · simp [htrue, hbehind]

/-- The function is an expression that has the value of its first true
clause. -/
theorem hasValue_select {last : List Char × List Char} (hlast : isClause last = true)
    (hclauses : ∀ clause ∈ clauses, isClause clause = true)
    (hvalues : List.Forall₂ (ClauseHasValue ops isTrue) (clauses ++ [last]) values) {value : α × α}
    (hfirst : values.find? (isTrue ·.1) = some value) : (reference ('$' :: 'S' :: '(' ::
    renderClauses last clauses)).wellFormed = true ∧
    HasValue ops isTrue ('$' :: 'S' :: '(' :: renderClauses last clauses)
        value.2 := by
  have hwell : (reference ('$' :: 'S' :: '(' ::
      renderClauses last clauses)).wellFormed = true := by
    have hclosed := isClosed_renderClauses hlast hclauses isBreak
    rw [wellFormed]
    simpa [isClosed, isBreak] using hclosed
  refine ⟨hwell, ?_⟩
  obtain ⟨least, hleast⟩ := evalClauses_eq hvalues
  apply HasValue.of_succ least
  intro depth hdepth
  have hparse : parse ('$' :: 'S' :: '(' :: renderClauses last clauses) =
      some (.reference ('$' :: 'S' :: '(' :: renderClauses last clauses)) :=
    parse_render hwell
  rw [evalSelect, hparse, bind_some, evalWith]
  change (readClauses (renderClauses last clauses).length (renderClauses last clauses)).bind _ = _
  rw [readClauses_renderClauses hlast hclauses (length_lt_renderClauses last clauses),
    bind_some, hleast depth (by omega), hfirst]
  rfl

end Values

end MExpression
