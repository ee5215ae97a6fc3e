/-
Building a cross reference while the table is in use.  The plan of the cross
reference visits the rows in order and counts them; the trigger runs with every
update of the column, before, behind and at the row that the plan has reached.
-/
import Octo.XrefTrigger

namespace Octo

open GlobalTree List

namespace XrefBuild

variable {σ : Type*}

/-- Where the plan stands.  A position is the subscripts that its loops have
reached, the empty text at first; for a row, the value is looked up for the SET
and once more for the second $INCREMENT. -/
inductive Scan (σ : Type*)
  | idle
  | order (position : List σ)
  | read (keys : List σ)
  | entry (keys : List σ) (value : σ)
  | total (keys : List σ)
  | reread (keys : List σ)
  | count (keys : List σ) (value : σ)
  | finished
deriving DecidableEq

/-- The column of each row of the base table, the cross reference, whether the
trigger is there, and the plan; it has finished once the status of the cross
reference is "done". -/
structure State (σ : Type*) [LinearOrder σ] where
  table : Global σ σ
  xref : Global σ XrefValue
  triggered : Bool
  scan : Scan σ

/-- What can happen: the plan is called, takes a step or is stopped, and a row is
set or killed. -/
inductive Event (σ : Type*)
  | start
  | build
  | stop
  | set (keys : List σ) (value : σ)
  | kill (keys : List σ)
deriving DecidableEq

variable [LinearOrder σ] [OrderBot σ]

/-- The value of a row if it is not the empty text, which comes first in the
order of the subscripts. -/
def column (table : Global σ σ) (keys : List σ) : Option σ :=
  (table.get keys).filter (· ≠ ⊥)

/-- One $ORDER of the loops over the `n` keys. -/
def advance (n : ℕ) (table : Global σ σ) (position : List σ) : Scan σ :=
  match table.order position.dropLast position.getLast? with
  | some subscript =>
    if position.length = n then .read (position.dropLast ++ [subscript])
    else .order (position.dropLast ++ [subscript, ⊥])
  | none =>
    if position.length ≤ 1 then .finished else .order position.dropLast

def build (n : ℕ) (state : State σ) : Option (State σ) :=
  match state.scan with
  | .idle => none
  | .order position =>
    some { state with scan := advance n state.table position }
  | .read keys =>
    some { state with
      scan := .entry keys ((state.table.get keys).getD ⊥) }
  | .entry keys value =>
    some { state with
      xref := state.xref.set (value :: keys) .entry, scan := .total keys }
  | .total keys =>
    -- IF $INCREMENT(total),$INCREMENT(count) stops at a total of zero.
    let xref := incrementBy 1 [] state.xref
    some { state with
      xref := xref
      scan := if xrefCount xref [] = 0 then .order keys else .reread keys }
  | .reread keys =>
    some { state with
      scan := .count keys ((state.table.get keys).getD ⊥) }
  | .count keys value =>
    some { state with
      xref := incrementBy 1 [value] state.xref, scan := .order keys }
  | .finished => none

/-- A SET of a row; the trigger is for the piece of the column. -/
def set (state : State σ) (keys : List σ) (value : σ) : Option (State σ) :=
  let table := state.table.set keys value
  let oldValue := column state.table keys
  let newValue := column table keys
  let xref :=
    if state.triggered ∧ oldValue ≠ newValue then
      handleSet state.xref (.set keys oldValue newValue)
    else some state.xref
  xref.map fun xref => { state with table := table, xref := xref }

def kill (state : State σ) (keys : List σ) : Option (State σ) :=
  let xref :=
    if state.triggered ∧ (state.table.get keys).isSome then
      handleSet state.xref (.kill keys)
    else some state.xref
  xref.map fun xref =>
    { state with table := state.table.kill keys, xref := xref }

/-- A call of the plan does nothing if the cross reference is done; otherwise it
makes sure that the trigger is there and begins with the first row.  What an
earlier call has left in the cross reference stays. -/
def step (n : ℕ) (state : State σ) : Event σ → Option (State σ)
  | .start =>
    match state.scan with
    | .idle => some { state with triggered := true, scan := .order [⊥] }
    | .finished => some state
    | _ => none
  | .build => build n state
  | .stop =>
    match state.scan with
    | .finished => some state
    | _ => some { state with scan := .idle }
  | .set keys value =>
    if keys.length = n then XrefBuild.set state keys value else none
  | .kill keys =>
    if keys.length = n then XrefBuild.kill state keys else none

def run (n : ℕ) (state : State σ) : List (Event σ) → Option (State σ)
  | [] => some state
  | event :: rest => (step n state event).bind fun next => run n next rest

def initial (table : Global σ σ) : State σ where
  table := table
  xref := .empty
  triggered := false
  scan := .idle

/-- The subscripts of a row come before a position, or begin with it. -/
def Behind (position keys : List σ) : Prop :=
  keys < position ∨ position <+: keys

/-- The rows that the plan has dealt with. -/
def Scan.Passed : Scan σ → List σ → Prop
  | idle, _ => False
  | order position, keys => Behind position keys
  | read row, keys => keys < row
  | entry row _, keys => keys < row
  | total row, keys => keys < row
  | reread row, keys => keys < row
  | count row _, keys => keys < row
  | finished, _ => True

/-- The row whose entry has been set and which has not been counted. -/
def Scan.uncounted? : Scan σ → Option (List σ)
  | total row => some row
  | reread row => some row
  | count row _ => some row
  | _ => none

/-- The row whose value has been read for the entry, up to its last count. -/
def Scan.inProgress? : Scan σ → Option (List σ)
  | entry row _ => some row
  | scan => scan.uncounted?

/-- The row whose value is about to be looked up for the entry. -/
def Scan.read? : Scan σ → Option (List σ)
  | read row => some row
  | _ => none

/-- The condition on a step.  The plan is called with nothing in the cross
reference and no row without a key, and finds a value in each row.  While it
runs, only rows that it has passed get another value, the row it is about to
count is not killed, and an update does not bring a count to zero that does not
include this row. -/
def Timely (n : ℕ) (state : State σ) : Event σ → Prop
  | .start => state.scan = .idle → state.xref.nodes = [] ∧
      ∀ node ∈ state.table.nodes, node.1.length = n → node.2 ≠ ⊥ → ⊥ ∉ node.1
  | .build => ∀ row ∈ state.scan.read?, column state.table row ≠ none
  | .stop => True
  | .set keys value => state.scan = .idle ∨
      (column state.table keys ≠ column (state.table.set keys value) keys → state.scan.Passed keys ∧
      ∀ row ∈ state.scan.uncounted?, ∀ old ∈ column state.table keys,
      column state.table row = some old → xrefCount state.xref [old] ≠ 1)
  | .kill keys => state.scan = .idle ∨ (keys ∉ state.scan.inProgress? ∧ (state.scan.Passed keys →
        ∀ row ∈ state.scan.uncounted?, ∀ old ∈ column state.table keys,
        (column state.table row = some old →
        xrefCount state.xref [old] ≠ 1) ∧ xrefCount state.xref [] ≠ 1))

def TimelyRun (n : ℕ) (state : State σ) : List (Event σ) → Prop
  | [] => True
  | event :: rest =>
    Timely n state event ∧ ∀ next ∈ step n state event, TimelyRun n next rest

instance : (scan : Scan σ) → (keys : List σ) → Decidable (scan.Passed keys)
  | .idle, _ => isFalse not_false
  | .order position, keys =>
    inferInstanceAs (Decidable (keys < position ∨ position <+: keys))
  | .read row, keys => inferInstanceAs (Decidable (keys < row))
  | .entry row _, keys => inferInstanceAs (Decidable (keys < row))
  | .total row, keys => inferInstanceAs (Decidable (keys < row))
  | .reread row, keys => inferInstanceAs (Decidable (keys < row))
  | .count row _, keys => inferInstanceAs (Decidable (keys < row))
  | .finished, _ => isTrue trivial

instance (n : ℕ) (state : State σ) : (event : Event σ) → Decidable (Timely n state event)
  | .start => inferInstanceAs (Decidable (_ → _ ∧ _))
  | .build => inferInstanceAs (Decidable (∀ row ∈ state.scan.read?, _))
  | .stop => isTrue trivial
  | .set _ _ => inferInstanceAs (Decidable (_ ∨ (_ → _ ∧ _)))
  | .kill _ => inferInstanceAs (Decidable (_ ∨ (_ ∧ _)))

instance decidableTimelyRun (n : ℕ) : (state : State σ) →
    (events : List (Event σ)) → Decidable (TimelyRun n state events)
  | _, [] => isTrue trivial
  | state, event :: rest =>
    have : ∀ next, Decidable (TimelyRun n next rest) :=
      fun next => decidableTimelyRun n next rest
    inferInstanceAs (Decidable (Timely n state event ∧
      ∀ next ∈ step n state event, TimelyRun n next rest))

section Positions

omit [OrderBot σ]

variable {outer position keys : List σ}

variable {rest : List σ}

theorem lt_append_iff : keys < outer ++ rest ↔
      keys < outer ∨ ∃ tail, keys = outer ++ tail ∧ tail < rest := by
  induction outer generalizing keys with
  | nil => simp
  | cons first outer ih =>
    cases keys with
    | nil => simp
    | cons key keys =>
      rw [cons_append, cons_lt_cons_iff, cons_lt_cons_iff, ih]
      constructor
      · rintro (hlt | ⟨rfl, hlt | ⟨tail, rfl, htail⟩⟩)
        · exact .inl (.inl hlt)
        · exact .inl (.inr ⟨rfl, hlt⟩)
        · exact .inr ⟨tail, rfl, htail⟩
      · rintro ((hlt | ⟨rfl, hlt⟩) | ⟨tail, htail, hlt⟩)
        · exact .inl hlt
        · exact .inr ⟨rfl, .inl hlt⟩
        · cases htail
          exact .inr ⟨rfl, .inr ⟨tail, rfl, hlt⟩⟩

theorem behind_append_iff : Behind (outer ++ rest) keys ↔
      keys < outer ∨ ∃ tail, keys = outer ++ tail ∧ Behind rest tail := by
  rw [Behind, lt_append_iff]
  constructor
  · rintro ((hlt | ⟨tail, rfl, hlt⟩) | ⟨tail, rfl⟩)
    · exact .inl hlt
    · exact .inr ⟨tail, rfl, .inl hlt⟩
    · exact .inr ⟨rest ++ tail, by rw [append_assoc], .inr (prefix_append rest tail)⟩
  · rintro (hlt | ⟨tail, rfl, hlt | hpre⟩)
    · exact .inl (.inl hlt)
    · exact .inl (.inr ⟨tail, rfl, hlt⟩)
    · exact .inr (prefix_append_right_inj outer |>.mpr hpre)

theorem behind_cons_iff {first key : σ} : Behind (first :: rest) (key :: keys) ↔
      key < first ∨ key = first ∧ Behind rest keys := by
  rw [Behind, cons_lt_cons_iff, cons_prefix_cons, Behind]
  constructor
  · rintro ((hlt | ⟨rfl, hlt⟩) | ⟨rfl, hpre⟩)
    · exact .inl hlt
    · exact .inr ⟨rfl, .inl hlt⟩
    · exact .inr ⟨rfl, .inr hpre⟩
  · rintro (hlt | ⟨rfl, hlt | hpre⟩)
    · exact .inl (.inl hlt)
    · exact .inl (.inr ⟨rfl, hlt⟩)
    · exact .inr ⟨rfl, hpre⟩

theorem behind_nil (keys : List σ) : Behind [] keys :=
  .inr nil_prefix

theorem behind_iff_le (hlength : keys.length = position.length) :
    Behind position keys ↔ keys ≤ position := by
  rw [Behind, le_iff_lt_or_eq]
  refine or_congr_right ⟨fun hpre => ?_, fun heq => heq ▸ prefix_rfl⟩
  exact (hpre.eq_of_length hlength.symm).symm

end Positions

section Advance

variable {n : ℕ} {table : Global σ σ} {outer keys : List σ} {last : σ}

omit [OrderBot σ] in
theorem behind_singleton_iff {key : σ} {tail : List σ} :
    Behind [last] (key :: tail) ↔ key ≤ last := by
  rw [behind_cons_iff, le_iff_lt_or_eq]
  simp [behind_nil]

omit [OrderBot σ] in
theorem behind_append_cons_iff {key : σ} {tail : List σ} :
    Behind (outer ++ [last]) (outer ++ key :: tail) ↔ key ≤ last := by
  rw [behind_append_iff, ← behind_singleton_iff]
  constructor
  · rintro (hlt | ⟨other, heq, hbehind⟩)
    · rw [← append_nil outer, append_assoc, Global.append_lt_append_iff] at hlt
      exact absurd hlt (not_lt_nil _)
    · rwa [append_cancel_left heq]
  · exact fun hbehind => .inr ⟨key :: tail, rfl, hbehind⟩

omit [OrderBot σ] in
/-- Two ways to go on below the same outer subscripts. -/
theorem or_exists_congr {P Q : List σ → Prop} (h : ∀ key tail, keys = outer ++ key :: tail →
    (P (key :: tail) ↔ Q (key :: tail))) (hlength : outer.length < keys.length) :
    (keys < outer ∨ ∃ tail, keys = outer ++ tail ∧ P tail) ↔
    keys < outer ∨ ∃ tail, keys = outer ++ tail ∧ Q tail := by
  refine or_congr_right (exists_congr fun tail => and_congr_right ?_)
  rintro rfl
  cases tail with
  | nil => simp at hlength
  | cons key tail => exact h key tail rfl

/-- An $ORDER passes no row, and leaves none of the passed ones. -/
theorem passed_advance_iff (hlength : keys.length = n) (houter : outer.length < n)
    (hdata : (table.get keys).isSome) (hkeys : ¬Behind (outer ++ [last]) keys → ⊥ ∉ keys) :
    (advance n table (outer ++ [last])).Passed keys ↔ Behind (outer ++ [last]) keys := by
  have hfollows : ∀ key tail, keys = outer ++ key :: tail → last < key →
      table.Follows outer (some last) key := by
    intro key tail htail hlt
    refine ⟨Global.hasData_iff_paths.mpr
      ⟨keys, Global.mem_paths.mpr hdata, tail, ?_⟩, by simpa using hlt⟩
    rw [htail, append_assoc]
    rfl
  rw [advance, dropLast_concat, getLast?_concat]
  cases horder : table.order outer (some last) with
  | none =>
    have hnone := Global.order_eq_none_iff.mp horder
    have hbehind : Behind outer keys ↔ Behind (outer ++ [last]) keys := by
      rw [← append_nil outer, behind_append_iff, append_nil, behind_append_iff]
      refine or_exists_congr (fun key tail htail => ?_) (by omega)
      rw [behind_singleton_iff]
      exact iff_of_true (behind_nil _)
        (not_lt.mp fun hlt => hnone key (hfollows key tail htail hlt))
    simp only [length_append, length_singleton]
    split_ifs with hfirst
    · have hnil : outer = [] := eq_nil_of_length_eq_zero (by omega)
      rw [← hbehind, hnil]
      exact iff_of_true trivial (behind_nil keys)
    · exact hbehind
  | some subscript =>
    have hleast := Global.order_eq_some_iff.mp horder
    have hiff : ∀ key tail, keys = outer ++ key :: tail → (key < subscript ↔ key ≤ last) := by
      intro key tail htail
      constructor
      · intro hlt
        exact not_lt.mp fun hafter =>
          not_le.mpr hlt (hleast.2 (hfollows key tail htail hafter))
      · exact fun hle => lt_of_le_of_lt hle (hleast.1.2 last rfl)
    simp only [length_append, length_singleton]
    split_ifs with hlast
    · rw [Scan.Passed, lt_append_iff, behind_append_iff]
      refine or_exists_congr (fun key tail htail => ?_) (by omega)
      have htailLength := congrArg List.length htail
      rw [length_append, length_cons] at htailLength
      obtain rfl : tail = [] := eq_nil_of_length_eq_zero (by omega)
      rw [behind_singleton_iff, ← hiff key [] htail, cons_lt_cons_iff]
      simp
    · rw [Scan.Passed, behind_append_iff, behind_append_iff]
      refine or_exists_congr (fun key tail htail => ?_) (by omega)
      have htailLength := congrArg List.length htail
      rw [behind_singleton_iff, ← hiff key tail htail, behind_cons_iff]
      refine or_iff_left ?_
      -- a row that begins with the new subscripts has an empty key
      rintro ⟨rfl, hbottom⟩
      have hahead : ¬Behind (outer ++ [last]) keys := by
        rw [htail, behind_append_cons_iff]
        exact not_le.mpr (hleast.1.2 last rfl)
      have hnotMem := hkeys hahead
      cases tail with
      | nil => simp at htailLength; omega
      | cons second tail =>
        rw [behind_singleton_iff, le_bot_iff] at hbottom
        exact hnotMem (by simp [htail, hbottom])

end Advance

end XrefBuild

end Octo
