/-
Values of the M language.  Every value is a text.  Comparing numbers reads the
longest numeric part at the start of a text; the sorts-after operator puts the
empty text first, then texts that are numbers as M writes them, then all others.
-/
import Mathlib.Algebra.Order.Field.Rat
import Mathlib.Data.List.Lex
import Octo.MExpression
import Mathlib.Data.Char

namespace MValue

open MExpression

/-- The signs at the start of a text: whether they make it negative. -/
def splitSigns : List Char → Bool × List Char
  | '+' :: rest => splitSigns rest
  | '-' :: rest => (!(splitSigns rest).1, (splitSigns rest).2)
  | text => (false, text)

def digitsValue (digits : List Char) : ℕ :=
  digits.foldl (fun value digit => 10 * value + (digit.toNat - '0'.toNat)) 0

/-- Numbers have 18 significant digits. -/
def roundDigits (digits : List Char) : List Char :=
  digits.takeWhile (· = '0') ++ (digits.dropWhile (· = '0')).take 18 ++
    List.replicate ((digits.dropWhile (· = '0')).length - 18) '0'

/-- The fraction behind a decimal point, and what follows. -/
def splitFraction : List Char → List Char × List Char
  | '.' :: rest => (rest.takeWhile Char.isDigit, rest.dropWhile Char.isDigit)
  | text => ([], text)

/-- Apply the exponent that a text starts with. -/
def scale (value : ℚ) : List Char → ℚ
  | 'E' :: '-' :: rest => value / 10 ^ digitsValue (rest.takeWhile Char.isDigit)
  | 'E' :: '+' :: rest => value * 10 ^ digitsValue (rest.takeWhile Char.isDigit)
  | 'E' :: rest => value * 10 ^ digitsValue (rest.takeWhile Char.isDigit)
  | _ => value

/-- The number a text starts with, 0 if there is none or it is too small. -/
def number (text : List Char) : ℚ :=
  let (negative, text) := splitSigns text
  let whole := text.takeWhile Char.isDigit
  let (fraction, rest) := splitFraction (text.dropWhile Char.isDigit)
  if whole ++ fraction = [] then 0
  else
    let value := scale ((digitsValue (roundDigits (whole ++ fraction)) : ℚ) /
      10 ^ fraction.length) rest
    if value < 1 / 10 ^ 43 then 0 else if negative then -value else value

/-- To count with a greater number is an error. -/
def inRange (text : List Char) : Bool :=
  |number text| < 10 ^ 47

/-- Texts that are numbers as M writes them: without a plus, an exponent,
leading zeros, or zeros at the end of a fraction. -/
def isCanonical (text : List Char) : Bool :=
  let body := match text with
    | '-' :: rest => rest
    | _ => text
  let whole := body.takeWhile Char.isDigit
  let (fraction, rest) := splitFraction (body.dropWhile Char.isDigit)
  text == ['0'] || rest.isEmpty && !(whole ++ fraction).isEmpty && whole.head? != some '0' &&
    (body == whole || !fraction.isEmpty && fraction.getLast? != some '0') &&
    roundDigits (whole ++ fraction) == whole ++ fraction && number text != 0 && inRange text

/-- The groups of texts, in collating order. -/
def collationGroup (text : List Char) : ℕ :=
  if text.isEmpty then 0 else if isCanonical text then 1 else 2

/-- `first]]second`.  No two canonical texts have the same number. -/
def sortsAfter (first second : List Char) : Bool :=
  if collationGroup first ≠ collationGroup second then
    collationGroup second < collationGroup first
  else if collationGroup first = 1 ∧ number first ≠ number second then
    number second < number first
  else second < first

/-- Both orders of two texts are decided by their groups, their numbers or the
texts themselves. -/
theorem sortsAfter_decided (first second : List Char) :
    collationGroup first ≠ collationGroup second ∧
    sortsAfter first second = decide (collationGroup second < collationGroup first) ∧
    sortsAfter second first = decide (collationGroup first < collationGroup second) ∨
    number first ≠ number second ∧ sortsAfter first second = decide (number second < number first) ∧
    sortsAfter second first = decide (number first < number second) ∨
    sortsAfter first second = decide (second < first) ∧
    sortsAfter second first = decide (first < second) := by
  unfold sortsAfter
  by_cases hgroup : collationGroup first = collationGroup second
  · by_cases hnumber : collationGroup second = 1 ∧ number first ≠ number second
    · simp [hgroup, hnumber, hnumber.2.symm]
    · have hother : ¬ (collationGroup second = 1 ∧ number second ≠ number first) :=
        fun h => hnumber ⟨h.1, h.2.symm⟩
      simp [hgroup, hnumber, hother]
  · simp [hgroup, Ne.symm hgroup]

/-- One of two different texts sorts after the other. -/
theorem sortsAfter_or_eq (first second : List Char) :
    sortsAfter first second = true ∨ first = second ∨ sortsAfter second first = true := by
  obtain ⟨hne, hafter, hbefore⟩ | ⟨hne, hafter, hbefore⟩ | ⟨hafter, hbefore⟩ :=
    sortsAfter_decided first second
  · simpa [hafter, hbefore] using (lt_or_gt_of_ne hne).symm.imp_right Or.inr
  · simpa [hafter, hbefore] using (lt_or_gt_of_ne hne).symm.imp_right Or.inr
  · simpa [hafter, hbefore, eq_comm] using lt_trichotomy second first

theorem sortsAfter_asymm {first second : List Char} (hafter : sortsAfter first second = true) :
    sortsAfter second first = false := by
  obtain ⟨-, hfirst, hsecond⟩ | ⟨-, hfirst, hsecond⟩ | ⟨hfirst, hsecond⟩ :=
    sortsAfter_decided first second
  all_goals
    rw [hfirst, decide_eq_true_eq] at hafter
    rw [hsecond, decide_eq_false_iff_not]
    exact hafter.not_gt

theorem sortsAfter_irrefl (text : List Char) : sortsAfter text text = false := by
  simp [sortsAfter]

def truthValue (condition : Bool) : List Char :=
  if condition then ['1'] else ['0']

/-- What IF makes of a value. -/
def isTrueText (text : List Char) : Bool :=
  number text ≠ 0

@[simp] theorem isTrueText_truthValue (condition : Bool) :
    isTrueText (truthValue condition) = condition := by
  cases condition <;> decide +kernel

/-- Operators on texts with the comparisons of M.  The others are those of
`other`. -/
def withComparisons (other : Operators (List Char)) : Operators (List Char) where
  literal := other.literal
  reference := other.reference
  unary := other.unary
  binary
    | .equals, first, second => truthValue (first = second)
    | .notEquals, first, second => truthValue (first ≠ second)
    | .less, first, second => truthValue (number first < number second)
    | .greater, first, second => truthValue (number second < number first)
    | .notLess, first, second => truthValue (¬ number first < number second)
    | .notGreater, first, second => truthValue (¬ number second < number first)
    | .follows, first, second => truthValue (sortsAfter first second)
    | op, first, second => other.binary op first second

/-- Comparing numbers has no value if one is out of range. -/
def checkedComparisons (other : Operators (List Char)) : Operators (Option (List Char)) where
  literal text := some (other.literal text)
  reference text := some (other.reference text)
  unary op value := value.map (other.unary op)
  binary op first second := do
    let first ← first
    let second ← second
    if op ∈ [.less, .greater, .notLess, .notGreater] && !(inRange first && inRange second) then none
    else some ((withComparisons other).binary op first second)

/-- Operators on texts with AND, OR and NOT of M. -/
def withBooleans (other : Operators (List Char)) : Operators (List Char) where
  literal := other.literal
  reference := other.reference
  unary
    | .not, value => truthValue (!isTrueText value)
    | op, value => other.unary op value
  binary
    | .or, first, second => truthValue (isTrueText first || isTrueText second)
    | .and, first, second => truthValue (isTrueText first && isTrueText second)
    | op, first, second => other.binary op first second

end MValue
