/-
Routines of labelled entries.  An entry is a loop whose body calls other
labels; after the loop it may go on to one more label.  What is recorded of a
run is which labels were entered, and from which loop.
-/
import Mathlib.Data.List.Basic

namespace CallTrace

open List

/-- The labels the loop of an entry calls in every round, and the one it goes
on to. -/
structure Entry (Λ : Type*) where
  label : Λ
  calls : List Λ
  next : Option Λ
deriving DecidableEq, Repr

/-- A label was entered, from the loop of `caller` if there is one. -/
structure Event (Λ : Type*) where
  label : Λ
  caller : Option Λ
deriving DecidableEq, Repr

variable {Λ : Type*} [DecidableEq Λ]

/-- The entry of a label: the first that has it. -/
def entryAt (routine : List (Entry Λ)) (label : Λ) : Option (Entry Λ) :=
  routine.find? (·.label = label)

omit [DecidableEq Λ] in
def callAll (call : Λ → List (Event Λ) → Option (List (Event Λ))) :
    List Λ → List (Event Λ) → Option (List (Event Λ))
  | [], done => some done
  | label :: rest, done => do
    let done ← call label done
    callAll call rest done

omit [DecidableEq Λ] in
def repeatBody (body : List (Event Λ) → Option (List (Event Λ))) :
    Nat → List (Event Λ) → Option (List (Event Λ))
  | 0, done => some done
  | rounds + 1, done => do
    let done ← body done
    repeatBody body rounds done

/-- Enter a label.  `rounds` says how often a loop that is entered after the
events so far is run. -/
def enter (routine : List (Entry Λ)) (rounds : List (Event Λ) → Nat) :
    Nat → Λ → Option Λ → List (Event Λ) → Option (List (Event Λ))
  | 0, _, _, _ => none
  | fuel + 1, label, caller, done => do
    let entry ← entryAt routine label
    let done := done ++ [⟨label, caller⟩]
    let done ← repeatBody (callAll (fun callee =>
      enter routine rounds fuel callee (some label)) entry.calls) (rounds done) done
    match entry.next with
    | none => some done
    | some next => enter routine rounds fuel next none done

/-- An event that comes from the loop of an entry. -/
def Nested (routine : List (Entry Λ)) (event : Event Λ) : Prop :=
  ∃ caller entry, event.caller = some caller ∧
    entryAt routine caller = some entry ∧ event.label ∈ entry.calls

/-- The labels that are gone through outside of loops. -/
inductive Follows (routine : List (Entry Λ)) : Option Λ → List Λ → Prop
  | done : Follows routine none []
  | step {label : Λ} {entry : Entry Λ} {rest : List Λ} (hentry : entryAt routine label = some entry)
      (hnext : Follows routine entry.next rest) : Follows routine (some label) (label :: rest)

/-- Loops call labels of lower rank that do not go on to another. -/
def Ranked (routine : List (Entry Λ)) (rank : Λ → Nat) : Prop :=
  ∀ label entry, entryAt routine label = some entry →
    ∀ callee ∈ entry.calls, rank callee < rank label ∧
      ∃ found, entryAt routine callee = some found ∧ found.next = none

section Body

omit [DecidableEq Λ]

variable {P : Event Λ → Prop}

/-- What a step adds to the events satisfies `P`. -/
def Adds (P : Event Λ → Prop) (step : List (Event Λ) → Option (List (Event Λ))) : Prop :=
  ∀ done, ∃ more, step done = some (done ++ more) ∧ ∀ event ∈ more, P event

theorem Adds.callAll {call : Λ → List (Event Λ) → Option (List (Event Λ))} {labels : List Λ}
    (hcall : ∀ label ∈ labels, Adds P (call label)) : Adds P (callAll call labels) := by
  induction labels with
  | nil => exact fun done => ⟨[], by simp [CallTrace.callAll], by simp⟩
  | cons label rest ih =>
    intro done
    obtain ⟨first, hfirst, hfirstP⟩ := hcall label mem_cons_self done
    obtain ⟨more, hmore, hmoreP⟩ := ih
      (fun other hother => hcall other (mem_cons_of_mem _ hother)) (done ++ first)
    refine ⟨first ++ more, ?_, ?_⟩
    · rw [CallTrace.callAll, hfirst]
      simpa using hmore
    · intro event hevent
      rcases mem_append.mp hevent with hevent | hevent
      · exact hfirstP event hevent
      · exact hmoreP event hevent

theorem Adds.repeatBody {body : List (Event Λ) → Option (List (Event Λ))} (hbody : Adds P body)
    (rounds : Nat) : Adds P (repeatBody body rounds) := by
  induction rounds with
  | zero => exact fun done => ⟨[], by simp [CallTrace.repeatBody], by simp⟩
  | succ rounds ih =>
    intro done
    obtain ⟨first, hfirst, hfirstP⟩ := hbody done
    obtain ⟨more, hmore, hmoreP⟩ := ih (done ++ first)
    refine ⟨first ++ more, ?_, ?_⟩
    · rw [CallTrace.repeatBody, hfirst]
      simpa using hmore
    · intro event hevent
      rcases mem_append.mp hevent with hevent | hevent
      · exact hfirstP event hevent
      · exact hmoreP event hevent

end Body

variable {routine : List (Entry Λ)} {rank : Λ → Nat}

/-- A label that a loop calls comes back, having added nested events. -/
theorem enter_nested (hranked : Ranked routine rank) (rounds : List (Event Λ) → Nat) {fuel : Nat}
    {label caller : Λ} {entry from' : Entry Λ} (hfuel : rank label < fuel)
    (hentry : entryAt routine label = some entry) (hnext : entry.next = none)
    (hfrom : entryAt routine caller = some from') (hcalled : label ∈ from'.calls) :
    Adds (Nested routine) (enter routine rounds fuel label (some caller)) := by
  induction fuel generalizing label caller entry from' with
  | zero => exact absurd hfuel (Nat.not_lt_zero _)
  | succ fuel ih =>
    have hbody : Adds (Nested routine) (callAll (fun callee =>
        enter routine rounds fuel callee (some label)) entry.calls) := by
      apply Adds.callAll
      intro callee hcallee
      obtain ⟨hlt, found, hfound, hfoundNext⟩ :=
        hranked label entry hentry callee hcallee
      exact ih (Nat.lt_of_lt_of_le hlt (Nat.le_of_lt_succ hfuel)) hfound hfoundNext hentry hcallee
    intro done
    obtain ⟨more, hmore, hmoreP⟩ := hbody.repeatBody (rounds (done ++ [⟨label, some caller⟩]))
      (done ++ [⟨label, some caller⟩])
    refine ⟨⟨label, some caller⟩ :: more, ?_, ?_⟩
    · simp [enter, hentry, hmore, hnext]
    · intro event hevent
      rcases mem_cons.mp hevent with rfl | hevent
      · exact ⟨caller, from', rfl, hfrom, hcalled⟩
      · exact hmoreP event hevent

/-- A run that goes through `labels` comes to an end.  Apart from entering
these, it enters labels from loops only. -/
theorem enter_follows (hranked : Ranked routine rank) (rounds : List (Event Λ) → Nat) {bound : Nat}
    (hbound : ∀ label, rank label ≤ bound) {label : Λ} {labels : List Λ}
    (hfollows : Follows routine (some label) labels) {fuel : Nat}
    (hfuel : bound + labels.length < fuel) (done : List (Event Λ)) :
    ∃ more, enter routine rounds fuel label none done = some (done ++ more) ∧
    (more.filter (·.caller = none)).map Event.label = labels ∧
    ∀ event ∈ more, event.caller = none ∨ Nested routine event := by
  induction labels generalizing label fuel done with
  | nil => cases hfollows
  | cons first rest ih =>
    obtain ⟨⟩ | ⟨hentry, hnext⟩ := hfollows
    rename_i entry
    obtain ⟨fuel, rfl⟩ := Nat.exists_eq_succ_of_ne_zero (Nat.ne_zero_of_lt hfuel)
    have hbody : Adds (Nested routine) (callAll (fun callee =>
        enter routine rounds fuel callee (some first)) entry.calls) := by
      apply Adds.callAll
      intro callee hcallee
      obtain ⟨_, found, hfound, hfoundNext⟩ :=
        hranked first entry hentry callee hcallee
      have hlow := hbound callee
      simp only [length_cons] at hfuel
      exact enter_nested hranked rounds (by omega) hfound hfoundNext hentry hcallee
    obtain ⟨inner, hinner, hinnerP⟩ := hbody.repeatBody
      (rounds (done ++ [⟨first, none⟩])) (done ++ [⟨first, none⟩])
    have hquiet : inner.filter (·.caller = none) = [] := by
      rw [filter_eq_nil_iff]
      intro event hevent
      obtain ⟨caller, _, hcaller, _⟩ := hinnerP event hevent
      simp [hcaller]
    cases hlast : entry.next with
    | none =>
      rw [hlast] at hnext
      cases hnext
      refine ⟨⟨first, none⟩ :: inner, ?_, ?_, ?_⟩
      · simp [enter, hentry, hinner, hlast]
      · simp [hquiet]
      · intro event hevent
        rcases mem_cons.mp hevent with rfl | hevent
        · exact Or.inl rfl
        · exact Or.inr (hinnerP event hevent)
    | some next =>
      rw [hlast] at hnext
      simp only [length_cons] at hfuel
      obtain ⟨more, hmore, hmain, hmoreP⟩ := ih hnext (by omega : bound + rest.length < fuel)
        (done ++ [⟨first, none⟩] ++ inner)
      refine ⟨⟨first, none⟩ :: inner ++ more, ?_, ?_, ?_⟩
      · simp only [enter, hentry, Option.bind_eq_bind, Option.bind_some, hinner, hlast, hmore]
        simp
      · simp [hquiet, hmain]
      · intro event hevent
        rcases mem_cons.mp hevent with rfl | hevent
        · exact Or.inl rfl
        · rcases mem_append.mp hevent with hevent | hevent
          · exact Or.inr (hinnerP event hevent)
          · exact hmoreP event hevent

end CallTrace
