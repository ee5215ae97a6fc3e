/-
Which plans a reference to a column defers.  The search for the owner of the
column goes up the parents of a plan, and at each of them looks at as many keys
as the plan has that the search began with.
-/
import Octo.PhysicalPlan

namespace Octo

open List PlannerState

/-- The plans from `cur` up. -/
inductive Chain (state : PlannerState) : Option ℕ → List PhysicalPlan → Prop
  | top : Chain state none []
  | up {id : ℕ} {plan : PhysicalPlan} {chain : List PhysicalPlan}
    (hfind : state.find? id = some plan) (hparent : Chain state plan.parentPlan chain) :
    Chain state (some id) (plan :: chain)

def PhysicalPlan.iterates (uniqueId : ℕ) (plan : PhysicalPlan) : Bool :=
  plan.iterKeys.any (·.uniqueId == uniqueId)

def PlannerState.defer (state : PlannerState) (id : ℕ) : PlannerState :=
  state.modify id fun plan => { plan with deferredPlan := true }

/-- The plans that the search marks, in a chain; none if it reads a key that
is not there. -/
def marks (uniqueId bound : ℕ) : List PhysicalPlan → Option (List ℕ)
  | [] => some []
  | plan :: chain => do
    let index ← scanIterKeys uniqueId bound plan.iterKeys 0
    if index ≠ plan.iterKeys.length then some []
    else (marks uniqueId bound chain).map (plan.id :: ·)

section Search

variable {uniqueId bound fuel : ℕ} {state : PlannerState} {cur : Option ℕ}
  {chain : List PhysicalPlan}

theorem PlannerState.id_of_find? {id : ℕ} {plan : PhysicalPlan}
    (hfind : state.find? id = some plan) : plan.id = id := by
  simpa using find?_some hfind

theorem PlannerState.find?_defer {id other : ℕ} (hne : other ≠ id) :
    (state.defer id).find? other = state.find? other := by
  have hid : ∀ plan : PhysicalPlan, (if plan.id = id then
      { plan with deferredPlan := true } else plan).id = plan.id := by
    intro plan
    split <;> rfl
  simp only [find?, defer, modify, find?_map, Function.comp_def, hid]
  cases hfind : state.plans.find? (·.id == other) with
  | none => rfl
  | some plan =>
    have hplan : plan.id = other := id_of_find? hfind
    rw [Option.map_some, if_neg (hplan ▸ hne)]

theorem Chain.defer {id : ℕ} (hchain : Chain state cur chain)
    (hid : id ∉ chain.map PhysicalPlan.id) : Chain (state.defer id) cur chain := by
  induction hchain with
  | top => exact .top
  | up hfind _ ih =>
    rw [map_cons, mem_cons, not_or, id_of_find? hfind] at hid
    exact .up ((find?_defer (Ne.symm hid.1)).trans hfind) (ih hid.2)

theorem markDeferred_eq (hchain : Chain state cur chain)
    (hnodup : (chain.map PhysicalPlan.id).Nodup) (hfuel : chain.length ≤ fuel) :
    markDeferred uniqueId bound fuel cur state =
    (marks uniqueId bound chain).map (List.foldl defer state) := by
  induction chain generalizing state cur fuel with
  | nil =>
    cases hchain
    cases fuel <;> rfl
  | cons plan chain ih =>
    obtain ⟨fuel, rfl⟩ := Nat.exists_eq_add_one_of_ne_zero (Nat.ne_zero_of_lt hfuel)
    obtain ⟨hid, hnodup⟩ := nodup_cons.mp hnodup
    cases hchain with
    | up hfind hparent =>
      have hrest := ih (hparent.defer hid) hnodup (Nat.le_of_succ_le_succ hfuel)
      rw [id_of_find? hfind] at hrest hid
      simp only [markDeferred, hfind, Option.bind_eq_bind, Option.bind_some, marks]
      cases scanIterKeys uniqueId bound plan.iterKeys 0 with
      | none => rfl
      | some index =>
        simp only [Option.bind_some]
        split_ifs
        · rfl
        · rw [Option.map_map, ← defer, hrest, id_of_find? hfind]
          rfl

/-- A plan without a key of the table is marked exactly if the bound is its
number of keys; at any other plan the search ends. -/
theorem scanIterKeys_cases (uniqueId bound : ℕ) (keys : List SqlKey) (start : ℕ) :
    (keys.any (·.uniqueId == uniqueId) = true →
    ∃ index, scanIterKeys uniqueId bound keys start = some index ∧ index ≠ start + keys.length) ∧
    (keys.any (·.uniqueId == uniqueId) = false →
    (scanIterKeys uniqueId bound keys start = some (start + keys.length) ↔
    keys.length = bound)) := by
  induction keys generalizing bound start with
  | nil => cases bound <;> simp [scanIterKeys]
  | cons key keys ih =>
    cases bound with
    | zero => simp [scanIterKeys]
    | succ bound =>
      have ih := ih bound (start + 1)
      rw [scanIterKeys]
      split_ifs with h
      · simp [h]
      · have hlength : start + (keys.length + 1) = start + 1 + keys.length := by omega
        simpa [h, hlength] using ih

theorem marks_eq_iff : marks uniqueId bound chain = some ((chain.takeWhile
    (!PhysicalPlan.iterates uniqueId ·)).map PhysicalPlan.id) ↔
    ∀ plan ∈ chain.takeWhile (!PhysicalPlan.iterates uniqueId ·), plan.iterKeys.length = bound := by
  induction chain with
  | nil => simp [marks]
  | cons plan chain ih =>
    obtain ⟨howner, hother⟩ :=
      scanIterKeys_cases uniqueId bound plan.iterKeys 0
    rw [Nat.zero_add] at howner hother
    cases hplan : plan.iterates uniqueId with
    | true =>
      obtain ⟨index, hscan, hne⟩ := howner hplan
      simp [marks, hscan, hne, hplan]
    | false =>
      have hscan := hother hplan
      rw [takeWhile_cons, hplan]
      simp only [Bool.not_false, ↓reduceIte, map_cons, forall_mem_cons, ← hscan, ← ih, marks]
      cases scanIterKeys uniqueId bound plan.iterKeys 0 with
      | none => simp
      | some index =>
        by_cases hindex : index = plan.iterKeys.length <;> simp [hindex]

end Search

/-- A reference marks the plans below the owner of its column, and reads no
key that is not there, exactly if each of these plans has as many keys as the
one with the reference. -/
theorem walkColumnAlias_marks_iff {state : PlannerState} {out : ℕ} {plan : PhysicalPlan}
    {chain : List PhysicalPlan} (ref : SqlColumnAlias)
    (hchain : Chain state (some out) (plan :: chain))
    (hnodup : ((plan :: chain).map PhysicalPlan.id).Nodup)
    (hlength : (plan :: chain).length ≤ state.nextId) :
    walkColumnAlias ref out state =
        (marks ref.tableAlias.uniqueId plan.iterKeys.length (plan :: chain)).map
          (List.foldl PlannerState.defer state) ∧
      (marks ref.tableAlias.uniqueId plan.iterKeys.length (plan :: chain) =
          some (((plan :: chain).takeWhile
            (!PhysicalPlan.iterates ref.tableAlias.uniqueId ·)).map PhysicalPlan.id) ↔
        ∀ below ∈ (plan :: chain).takeWhile (!PhysicalPlan.iterates ref.tableAlias.uniqueId ·),
          below.iterKeys.length = plan.iterKeys.length) := by
  refine ⟨?_, marks_eq_iff⟩
  have hfind : state.find? out = some plan := by
    cases hchain with
    | up hfind _ => exact hfind
  rw [walkColumnAlias, hfind]
  exact markDeferred_eq hchain hnodup hlength

namespace DeferExample

def table : SqlTableAlias := ⟨⟨"t", [⟨"id"⟩], [⟨"id"⟩], idColumn_ne_nil⟩, 0⟩

def key (uniqueId : ℕ) : SqlKey := ⟨none, 0, uniqueId, none, .advance, false, none⟩

/-- A plan with its address, its parent and the tables whose keys it has. -/
def plan (id : ℕ) (parent : Option ℕ) (ids : List ℕ) : PhysicalPlan :=
  { newPlan id ⟨parent, false⟩ (key 9) .null with iterKeys := ids.map key }

/-- A query, and below it two sub-queries. -/
def nested (keys0 keys1 keys2 : List ℕ) : PlannerState :=
  ⟨[plan 2 (some 1) keys2, plan 1 (some 0) keys1, plan 0 none keys0], 3, []⟩

end DeferExample

open DeferExample in
theorem equal_counts_mark : walkColumnAlias ⟨table, ⟨"id"⟩⟩ 2 (nested [0] [1] [2]) =
    some (((nested [0] [1] [2]).defer 2).defer 1) := by
  obtain ⟨hwalk, hmarks⟩ := walkColumnAlias_marks_iff ⟨table, ⟨"id"⟩⟩
    (.up rfl (.up rfl (.up rfl .top)) : Chain (nested [0] [1] [2]) (some 2) _)
    (by decide) (by decide)
  rw [hwalk, hmarks.mpr (by decide)]
  rfl

open DeferExample in
/-- With more keys in the sub-query than in its parent a key is read that is
not there; with fewer the parent is taken for the owner. -/
theorem unequal_counts_fail : walkColumnAlias ⟨table, ⟨"id"⟩⟩ 2 (nested [0] [1] [2, 3]) = none ∧
    walkColumnAlias ⟨table, ⟨"id"⟩⟩ 2 (nested [0] [1, 3] [2]) =
    some ((nested [0] [1, 3] [2]).defer 2) := by
  decide

end Octo
