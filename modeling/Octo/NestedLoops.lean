/-
Nested loops, each over values that may depend on those of the loops around
it.  A level may also fix a value in place of a loop.  A test that every loop
makes before each round may end all loops at once; levels that fix a value do
not make it.
-/
import Mathlib.Data.List.Infix

namespace NestedLoops

variable {α S T : Type*}

/-- A level of a nest, with its values given those of the levels around it.
The guard of a fixed value sees this value too. -/
inductive Level (α : Type*)
  | each (values : List α → List α)
  | only (value : List α → α) (guard : List α → Bool)

def Level.loops : Level α → Bool
  | each _ => true
  | only _ _ => false

def forEach (quit : S → Bool) (body : α → S → S) : List α → S → S
  | [], state => state
  | value :: rest, state =>
    if quit state then state
    else forEach quit body rest (body value state)

def nest (quit : S → Bool) (body : List α → S → S) : List (Level α) → List α → S → S
  | [], outer, state => body outer state
  | .each values :: inner, outer, state =>
    forEach quit (fun value => nest quit body inner (outer ++ [value])) (values outer) state
  | .only value guard :: inner, outer, state =>
    if guard (outer ++ [value outer]) then
      nest quit body inner (outer ++ [value outer]) state
    else state

/-- The values with which the body of a nest is run. -/
def tuples : List (Level α) → List α → List (List α)
  | [], outer => [outer]
  | .each values :: inner, outer =>
    (values outer).flatMap fun value => tuples inner (outer ++ [value])
  | .only value guard :: inner, outer =>
    if guard (outer ++ [value outer]) then
      tuples inner (outer ++ [value outer])
    else []

section ForEach

variable {quit : S → Bool} {body : α → S → S}

variable {state : S}

theorem forEach_of_quit (hquit : quit state = true)
    (values : List α) : forEach quit body values state = state := by
  cases values with
  | nil => rfl
  | cons value rest => rw [forEach, if_pos hquit]

theorem forEach_append (left right : List α) (state : S) : forEach quit body (left ++ right) state =
    forEach quit body right (forEach quit body left state) := by
  induction left generalizing state with
  | nil => rfl
  | cons value left ih =>
    by_cases hquit : quit state = true
    · rw [forEach_of_quit hquit, forEach_of_quit hquit, forEach_of_quit hquit]
    · simp only [List.cons_append, forEach, if_neg hquit]
      exact ih _

/-- What every round keeps holds at the end. -/
theorem forEach_rule (Inv : S → Prop) (hbody : ∀ value state, Inv state → quit state = false →
    Inv (body value state)) {values : List α} (hinv : Inv state) :
    Inv (forEach quit body values state) := by
  induction values generalizing state with
  | nil => exact hinv
  | cons value rest ih =>
    rw [forEach]
    by_cases hquit : quit state = true
    · rwa [if_pos hquit]
    · rw [if_neg hquit]
      exact ih (hbody value state hinv (by simpa using hquit))

/-- Two loops over the same values keep their states related if single rounds
do. -/
theorem forEach_related {quit' : T → Bool} {body' : α → T → T} {R : S → T → Prop}
    (hquit : ∀ state other, R state other → quit state = quit' other)
    (hbody : ∀ value state other, R state other → quit state = false →
    R (body value state) (body' value other)) {values : List α} {other : T}
    (hrelated : R state other) :
    R (forEach quit body values state) (forEach quit' body' values other) := by
  induction values generalizing state other with
  | nil => exact hrelated
  | cons value rest ih =>
    have hsame := hquit state other hrelated
    rw [forEach, forEach, ← hsame]
    by_cases hstop : quit state = true
    · rwa [if_pos hstop, if_pos hstop]
    · rw [if_neg hstop, if_neg hstop]
      exact ih (hbody value state other hrelated (by simpa using hstop))

end ForEach

section Nest

variable {quit : S → Bool} {body : List α → S → S}

def test (quit : S → Bool) (levels : List (Level α)) : S → Bool :=
  fun state => levels.any Level.loops && quit state

@[simp] theorem test_nil (state : S) : test quit ([] : List (Level α)) state = false := rfl

@[simp] theorem test_each (values : List α → List α) (inner : List (Level α)) (state : S) :
    test quit (.each values :: inner) state = quit state := by
  simp [test, Level.loops]

@[simp] theorem test_only (value : List α → α) (guard : List α → Bool) (inner : List (Level α)) :
    test quit (.only value guard :: inner) = test quit inner := by
  funext state
  simp [test, Level.loops]

theorem length_tuples_le_one {levels : List (Level α)} (hlevels : levels.any Level.loops = false)
    (outer : List α) : (tuples levels outer).length ≤ 1 := by
  induction levels generalizing outer with
  | nil => simp [tuples]
  | cons level inner ih =>
    cases level with
    | each values => simp [Level.loops] at hlevels
    | only value guard =>
      rw [tuples]
      split_ifs with hguard
      · exact ih (by simpa [Level.loops] using hlevels) _
      · simp

/-- A loop without a test runs the body once for at most one value. -/
theorem forEach_of_length_le_one {test' : S → Bool} {values : List α}
    {step : α → S → S} (hlength : values.length ≤ 1) {state : S}
    (htest : quit state = false) (hother : test' state = false) :
    forEach quit step values state = forEach test' step values state := by
  rcases values with _ | ⟨value, _ | ⟨next, rest⟩⟩
  · rfl
  · simp [forEach, htest, hother]
  · simp at hlength

/-- A nest is one loop over all its values. -/
theorem nest_eq_forEach (levels : List (Level α)) (outer : List α)
    (state : S) : nest quit body levels outer state =
      forEach (test quit levels) body (tuples levels outer) state := by
  induction levels generalizing outer state with
  | nil => simp [nest, tuples, forEach]
  | cons level inner ih =>
    cases level with
    | only value guard =>
      rw [nest, tuples, test_only]
      split_ifs with hguard
      · exact ih _ _
      · rfl
    | each values =>
      have htest : test quit (.each values :: inner) = quit :=
        funext (test_each values inner)
      rw [nest, tuples, htest]
      generalize values outer = list
      induction list generalizing state with
      | nil => rfl
      | cons value rest ihRest =>
        rw [List.flatMap_cons, forEach_append]
        by_cases hquit : quit state = true
        · rw [forEach_of_quit hquit, forEach_of_quit hquit, forEach_of_quit hquit]
        · have hgo : quit state = false := by simpa using hquit
          rw [forEach, if_neg hquit, ihRest, ih]
          congr 1
          -- the inner levels make the test unless they fix all values
          by_cases hinner : inner.any Level.loops = true
          · have : test quit inner = quit := by
              funext other
              simp [test, hinner]
            rw [this]
          · exact forEach_of_length_le_one (length_tuples_le_one (by simpa using hinner) _)
              (by simp [test, hgo]) hgo

end Nest

end NestedLoops
