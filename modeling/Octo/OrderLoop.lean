/-
Loops over the subscripts below a node of a hierarchical store, in the form
FOR  SET sub=$ORDER(node(sub)) QUIT:sub=""  DO body.  The body may change the
store as long as it adds no subscripts below the node.
-/
import Mathlib.Data.Finset.Card
import Mathlib.Order.Bounds.Basic
import Octo.GlobalTree

namespace GlobalTree

open List

namespace Global

variable {σ V : Type*} [LinearOrder σ]

def paths (g : Global σ V) : Finset (List σ) :=
  (g.nodes.map Prod.fst).toFinset

variable {g : Global σ V} {left path right : List σ} {after : Option σ}

theorem mem_paths : path ∈ g.paths ↔ (g.get path).isSome := by
  rw [paths, mem_toFinset, isSome_get]

theorem paths_set (g : Global σ V) (path : List σ) (value : V) :
    (g.set path value).paths = insert path g.paths := by
  ext other
  rw [Finset.mem_insert, mem_paths, mem_paths]
  by_cases hother : other = path
  · simp [hother, get_set_self]
  · simp [hother, get_set_ne]

theorem paths_kill (g : Global σ V) (path : List σ) :
    (g.kill path).paths = g.paths.filter fun other => ¬ path <+: other := by
  ext other
  rw [Finset.mem_filter, mem_paths, mem_paths, get_kill]
  by_cases hother : path <+: other
  · simp [hother]
  · simp [hother]

theorem hasData_iff_paths : g.HasData path ↔ ∃ other ∈ g.paths, path <+: other := by
  simp [HasData, paths]

theorem le_of_cons_lt_cons {first second : σ}
    (hlt : first :: left < second :: right) : first ≤ second := by
  rcases cons_lt_cons_iff.mp hlt with hlt | ⟨heq, _⟩
  · exact hlt.le
  · exact heq.le

theorem append_lt_append_iff (path : List σ) : path ++ left < path ++ right ↔ left < right := by
  induction path with
  | nil => rfl
  | cons head path ih => simp [ih]

/-- Subscripts come in collating order. -/
theorem pairwise_children (g : Global σ V) (path : List σ) :
    (g.children path).Pairwise (· ≤ ·) := by
  rw [children, pairwise_filterMap]
  refine g.sorted.imp ?_
  intro first second hlt left hleft right hright
  split_ifs at hleft hright with hfirst hsecond
  obtain ⟨tail, htail⟩ := hfirst
  obtain ⟨tail', htail'⟩ := hsecond
  rw [← htail, ← htail', append_lt_append_iff] at hlt
  rw [← htail, getElem?_append_right (le_refl _), Nat.sub_self] at hleft
  rw [← htail', getElem?_append_right (le_refl _), Nat.sub_self] at hright
  cases tail with
  | nil => simp at hleft
  | cons head tail =>
    cases tail' with
    | nil => simp at hright
    | cons head' tail' =>
      have hhead : head = left := by simpa using hleft
      have hhead' : head' = right := by simpa using hright
      rw [← hhead, ← hhead']
      exact le_of_cons_lt_cons hlt

/-- The subscripts below a node that come after a given one. -/
def Follows (g : Global σ V) (path : List σ) (after : Option σ) (subscript : σ) : Prop :=
  g.HasData (path ++ [subscript]) ∧ ∀ last ∈ after, last < subscript

theorem order_eq_none_iff : g.order path after = none ↔
      ∀ subscript, ¬ g.Follows path after subscript := by
  rw [order, find?_eq_none]
  constructor
  · rintro hnone subscript ⟨hdata, hafter⟩
    exact hnone subscript (mem_children.mpr hdata) (by cases after <;> simp_all)
  · intro hnone subscript hmem hafter
    refine hnone subscript ⟨mem_children.mp hmem, ?_⟩
    cases after <;> simp_all

/-- `$ORDER` finds the least subscript that comes after the given one. -/
theorem order_eq_some_iff {subscript : σ} : g.order path after = some subscript ↔
    IsLeast { next | g.Follows path after next } subscript := by
  have hfind : ∀ {subscript}, g.order path after = some subscript →
      IsLeast { next | g.Follows path after next } subscript := by
    intro subscript horder
    obtain ⟨hafter, front, rest, hsplit, hfront⟩ :=
      find?_eq_some_iff_append.mp horder
    have hsorted := g.pairwise_children path
    rw [hsplit] at hsorted
    constructor
    · refine ⟨mem_children.mp (by simp [hsplit]), ?_⟩
      intro last hlast
      simpa [Option.mem_def.mp hlast] using hafter
    · rintro next ⟨hdata, hnext⟩
      have hmem := mem_children.mpr hdata
      rw [hsplit, mem_append, mem_cons] at hmem
      rcases hmem with hmem | rfl | hmem
      · have hskip := hfront next hmem
        cases after <;> simp_all
      · exact le_refl _
      · exact (pairwise_cons.mp (pairwise_append.mp hsorted).2.1).1
          next hmem
  refine ⟨hfind, ?_⟩
  intro hleast
  cases horder : g.order path after with
  | none => exact absurd hleast.1 (order_eq_none_iff.mp horder subscript)
  | some found => rw [(hfind horder).unique hleast]

/-- The subscripts below a node that are still to come. -/
def remaining (g : Global σ V) (path : List σ) (after : Option σ) : Finset σ :=
  (g.children path).toFinset.filter fun subscript => after.all (· < subscript)

theorem mem_remaining_iff {subscript : σ} :
    subscript ∈ g.remaining path after ↔ g.Follows path after subscript := by
  rw [remaining, Finset.mem_filter, mem_toFinset, mem_children, Follows]
  cases after <;> simp

theorem card_remaining_le (g : Global σ V) (path : List σ)
    (after : Option σ) : (g.remaining path after).card ≤ g.nodes.length := by
  calc (g.remaining path after).card ≤ (g.children path).toFinset.card := Finset.card_filter_le _ _
    _ ≤ (g.children path).length := toFinset_card_le _
    _ ≤ g.nodes.length := length_filterMap_le _ _

end Global

open Global

variable {σ V S : Type*} [LinearOrder σ]

/-- The loop, on states that have the store as a part. -/
def forOrder (store : S → Global σ V) (path : List σ) (body : σ → S → S) :
    Nat → Option σ → S → Option S
  | 0, _, _ => none
  | fuel + 1, after, state =>
    match (store state).order path after with
    | none => some state
    | some subscript =>
      forOrder store path body fuel (some subscript) (body subscript state)

/-- A property that every round keeps holds at the end, where no subscript is
left.  The loop ends, as there are fewer subscripts to come after each round. -/
theorem forOrder_rule {store : S → Global σ V} {path : List σ} {body : σ → S → S}
    (Inv : Option σ → S → Prop) (hstep : ∀ after state subscript, Inv after state →
    (store state).order path after = some subscript → Inv (some subscript) (body subscript state) ∧
    ∀ next, (store (body subscript state)).HasData (path ++ [next]) →
    (store state).HasData (path ++ [next])) {fuel : Nat} {after : Option σ} {state : S}
    (hinv : Inv after state) (hfuel : ((store state).remaining path after).card < fuel) :
    ∃ later last, forOrder store path body fuel after state = some later ∧
    Inv last later ∧ ∀ subscript, ¬ (store later).Follows path last subscript := by
  induction fuel generalizing after state with
  | zero => exact absurd hfuel (Nat.not_lt_zero _)
  | succ fuel ih =>
    rw [forOrder]
    cases horder : (store state).order path after with
    | none => exact ⟨state, after, rfl, hinv, order_eq_none_iff.mp horder⟩
    | some subscript =>
      obtain ⟨hnext, hdata⟩ := hstep after state subscript hinv horder
      have hleast := order_eq_some_iff.mp horder
      apply ih hnext
      have hsubset : (store (body subscript state)).remaining path
          (some subscript) ⊂ (store state).remaining path after := by
        rw [Finset.ssubset_iff_of_subset]
        · refine ⟨subscript, mem_remaining_iff.mpr hleast.1, ?_⟩
          rw [mem_remaining_iff]
          exact fun hfollows => lt_irrefl _ (hfollows.2 subscript rfl)
        · intro next hmem
          rw [mem_remaining_iff] at hmem ⊢
          refine ⟨hdata next hmem.1, ?_⟩
          intro last hlast
          exact (hleast.1.2 last hlast).trans (hmem.2 subscript rfl)
      have hcard := Finset.card_lt_card hsubset
      omega

end GlobalTree
