/-
SELECT with LIMIT.  Only loops over keys look at the limit, so an arm with all
its keys fixed outputs a row past it, and rows are counted as they are found,
before they are put in order.
-/
import Octo.OrderBy

namespace Octo

open GlobalTree NestedLoops Subscripts NullSubscripts List

variable {σ X : Type*} [NullSubscripts σ]

def SelectOptions.withLimit (options : SelectOptions) (limit : Option ℕ) :
    SelectOptions :=
  { options with limit := limit }

/-- No arm without a loop finds a row once the limit is reached. -/
def Within (options : SelectOptions) (limit : ℕ) : List (Arm σ X) → Trace σ X → Prop
  | [], _ => True
  | arm :: rest, trace =>
    let later := traceArm (options.withLimit (some limit)) trace arm
    (arm.levels.any Level.loops = false → limit ≤ trace.picked.length →
      later.picked = trace.picked) ∧
    Within options limit rest later

/-- A run with a limit beside one without: it has the first of the rows, and
went the same way if it has not reached the limit. -/
structure CutOff (limit : ℕ) (cut whole : Trace σ X) : Prop where
  picked : cut.picked = whole.picked.take limit
  same : cut.picked.length < limit → cut = whole

section CutOff

variable {options : SelectOptions} {limit : ℕ} {arm : Arm σ X} {cut whole : Trace σ X}

theorem CutOff.refl (hlength : cut.picked.length ≤ limit) : CutOff limit cut cut :=
  ⟨(take_of_length_le hlength).symm, fun _ => rfl⟩

/-- Rows past the limit do not matter. -/
theorem CutOff.extend {later more : Trace σ X} (hcut : CutOff limit cut whole)
    (hlimit : limit ≤ cut.picked.length) (hlater : later.picked = cut.picked)
    (hmore : whole.picked <+: more.picked) : CutOff limit later more := by
  obtain ⟨rows, hrows⟩ := hmore
  have hlength : limit ≤ whole.picked.length := by
    have := congrArg List.length hcut.picked
    rw [length_take] at this
    omega
  constructor
  · rw [hlater, hcut.picked, ← hrows, take_append_of_le_length hlength]
  · intro hlt
    rw [hlater] at hlt
    omega

theorem length_pickRow_le (options : SelectOptions) (arm : Arm σ X) (keys : List σ)
    (trace : Trace σ X) : (pickRow options arm keys trace).picked.length ≤
    trace.picked.length + 1 := by
  rcases pickRow_picked options arm keys trace with heq | ⟨row, heq⟩ <;>
    simp [heq]

theorem full_none (trace : Trace σ X) : trace.full (options.withLimit none) = false := rfl

theorem full_some (trace : Trace σ X) : trace.full (options.withLimit (some limit)) =
      decide (limit ≤ trace.picked.length) := rfl

/-- A loop that looks at the limit. -/
theorem CutOff.forEach (hcut : CutOff limit cut whole) (tuples : List (List σ)) : CutOff limit
    (forEach (Trace.full (options.withLimit (some limit))) (pickRow options arm) tuples cut)
    (NestedLoops.forEach (fun _ => false) (pickRow options arm) tuples whole) := by
  induction tuples generalizing cut whole with
  | nil => exact hcut
  | cons keys rest ih =>
    by_cases hlimit : limit ≤ cut.picked.length
    · rw [forEach_of_quit (by rw [full_some]; simpa using hlimit)]
      exact hcut.extend hlimit rfl (picked_isPrefix_forEach _ _ _ _ _)
    · obtain rfl := hcut.same (by omega)
      rw [NestedLoops.forEach, NestedLoops.forEach, full_some,
        if_neg (by simpa using hlimit), if_neg (by simp)]
      have hlength := length_pickRow_le options arm keys cut
      exact ih (.refl (by omega))

theorem traceArm_none (trace : Trace σ X) (arm : Arm σ X) :
    traceArm (options.withLimit none) trace arm =
    NestedLoops.forEach (fun _ => false) (pickRow options arm) (tuples arm.levels []) trace := by
  rw [traceArm, nest_eq_forEach]
  have htest : test (Trace.full (options.withLimit none)) arm.levels =
      fun _ : Trace σ X => false := by
    funext other
    rw [test, full_none, Bool.and_false]
  rw [htest]
  rfl

theorem traceArm_of_loops (hloops : arm.levels.any Level.loops = true) (trace : Trace σ X) :
    traceArm (options.withLimit (some limit)) trace arm =
    NestedLoops.forEach (Trace.full (options.withLimit (some limit)))
    (pickRow options arm) (tuples arm.levels []) trace := by
  rw [traceArm, nest_eq_forEach]
  have htest : test (Trace.full (options.withLimit (some limit))) arm.levels =
      (Trace.full (options.withLimit (some limit)) : Trace σ X → Bool) := by
    funext other
    rw [test, hloops, Bool.true_and]
  rw [htest]
  rfl

/-- An arm without a loop does not look at the limit. -/
theorem traceArm_of_fixed (hfixed : arm.levels.any Level.loops = false) (trace : Trace σ X) :
    traceArm (options.withLimit (some limit)) trace arm =
    traceArm (options.withLimit none) trace arm := by
  rw [traceArm_none, traceArm, nest_eq_forEach]
  have htest : test (Trace.full (options.withLimit (some limit))) arm.levels =
      fun _ : Trace σ X => false := by
    funext other
    rw [test, hfixed, Bool.false_and]
  rw [htest]
  rfl

theorem length_traceArm_of_fixed (hfixed : arm.levels.any Level.loops = false) (trace : Trace σ X) :
    (traceArm (options.withLimit none) trace arm).picked.length ≤ trace.picked.length + 1 := by
  rw [traceArm_none]
  have hlength := length_tuples_le_one hfixed ([] : List σ)
  rcases htuples : tuples arm.levels [] with _ | ⟨keys, _ | ⟨next, rest⟩⟩
  · simp [NestedLoops.forEach]
  · exact length_pickRow_le options arm keys trace
  · simp [htuples] at hlength

/-- One arm beside the same arm without a limit. -/
theorem CutOff.traceArm (hcut : CutOff limit cut whole)
    (hwithin : arm.levels.any Level.loops = false → limit ≤ cut.picked.length →
      (traceArm (options.withLimit (some limit)) cut arm).picked = cut.picked) :
    CutOff limit (traceArm (options.withLimit (some limit)) cut arm)
      (Octo.traceArm (options.withLimit none) whole arm) := by
  by_cases hloops : arm.levels.any Level.loops = true
  · rw [traceArm_of_loops hloops, traceArm_none]
    exact hcut.forEach _
  · have hfixed : arm.levels.any Level.loops = false := by simpa using hloops
    by_cases hlimit : limit ≤ cut.picked.length
    · exact hcut.extend hlimit (hwithin hfixed hlimit) (picked_isPrefix_traceArm _ _ _)
    · obtain rfl := hcut.same (by omega)
      have hlength : (Octo.traceArm (options.withLimit none) cut
          arm).picked.length ≤ cut.picked.length + 1 :=
        length_traceArm_of_fixed hfixed cut
      rw [traceArm_of_fixed hfixed]
      exact .refl (by omega)

/-- All arms beside those without a limit. -/
theorem CutOff.foldl (arms : List (Arm σ X)) (hcut : CutOff limit cut whole)
    (hwithin : Within options limit arms cut) : CutOff limit
      (arms.foldl (Octo.traceArm (options.withLimit (some limit))) cut)
      (arms.foldl (Octo.traceArm (options.withLimit none)) whole) := by
  induction arms generalizing cut whole with
  | nil => exact hcut
  | cons arm rest ih => exact ih (hcut.traceArm hwithin.1) hwithin.2

theorem picked_isPrefix_foldl (options : SelectOptions) (arms : List (Arm σ X))
    (trace : Trace σ X) : trace.picked <+: (arms.foldl (Octo.traceArm options) trace).picked := by
  rw [← append_flatten_armRows]
  exact prefix_append _ _

/-- A row past the limit stays. -/
theorem lt_length_of_not_within (arms : List (Arm σ X)) (trace : Trace σ X)
    (hwithin : ¬ Within options limit arms trace) : limit <
    (arms.foldl (Octo.traceArm (options.withLimit (some limit))) trace).picked.length := by
  induction arms generalizing trace with
  | nil => exact absurd trivial hwithin
  | cons arm rest ih =>
    rw [foldl_cons]
    rw [Within, not_and_or] at hwithin
    rcases hwithin with hover | hrest
    · simp only [Classical.not_imp] at hover
      obtain ⟨_, hlimit, hpicked⟩ := hover
      have hfront := picked_isPrefix_traceArm (options.withLimit (some limit)) trace arm
      have hlonger := lt_of_le_of_ne hfront.length_le fun heq => hpicked (hfront.eq_of_length
        heq).symm
      have hlast := (picked_isPrefix_foldl (options.withLimit (some limit))
        rest (Octo.traceArm (options.withLimit (some limit)) trace arm)).length_le
      omega
    · exact ih _ hrest

theorem selected_eq_picked (options : SelectOptions) (arms : List (Arm σ X)) (others : Others σ X) :
    selected options arms others =
      (arms.foldl (Octo.traceArm options) ⟨others, []⟩).picked := by
  rw [← append_flatten_armRows]
  rfl

/-- The first of the rows are found. -/
theorem selected_withLimit {arms : List (Arm σ X)} {others : Others σ X}
    (hwithin : Within options limit arms ⟨others, []⟩) :
    selected (options.withLimit (some limit)) arms others =
      (selected (options.withLimit none) arms others).take limit := by
  rw [selected_eq_picked, selected_eq_picked]
  exact (CutOff.foldl arms (.refl (Nat.zero_le limit)) hwithin).picked

/-- The number of rows that are found. -/
theorem length_selected_iff (options : SelectOptions) (limit : ℕ) (arms : List (Arm σ X))
    (others : Others σ X) : (selected (options.withLimit (some limit)) arms others).length =
    min limit (selected (options.withLimit none) arms others).length ↔
    Within options limit arms ⟨others, []⟩ := by
  constructor
  · intro hlength
    by_contra hwithin
    have hover := lt_length_of_not_within arms _ hwithin
    rw [← selected_eq_picked] at hover
    omega
  · intro hwithin
    rw [selected_withLimit hwithin, length_take]

end CutOff

/-- The rows up to the limit stand before the others, and an empty value among
them only beside empty values. -/
structure FirstInOrder (limit : ℕ) (picked : List (Picked σ)) : Prop where
  first_le : ∀ first ∈ picked.take limit, ∀ second ∈ picked.drop limit, first.value ≤ second.value
  empty : null ∈ (picked.take limit).map Picked.value → ∀ row ∈ picked.take limit, row.value = null

/-- What is copied of the rows up to the limit begins the sorted result. -/
theorem FirstInOrder.exists_arranges {limit : ℕ} {picked : List (Picked σ)}
    (hfirst : FirstInOrder limit picked) : ∃ sorted, Arranges sorted picked ∧
    sorted.take limit = copied (picked.take limit) := by
  obtain ⟨hperm, hsorted⟩ := (copied_arranges_iff _).mpr hfirst.empty
  have hrest := mergeSort_perm (picked.drop limit) fun first second =>
    decide (first.value ≤ second.value)
  have hrestSorted := @pairwise_mergeSort (Picked σ) (fun first second =>
    decide (first.value ≤ second.value)) (fun first second third => by simpa using le_trans)
    (fun first second => by simpa using le_total first.value second.value) (picked.drop limit)
  refine ⟨copied (picked.take limit) ++ _, ⟨(hperm.append hrest).trans ?_,
    pairwise_append.mpr ⟨hsorted, hrestSorted.imp fun h => by simpa using h, ?_⟩⟩, ?_⟩
  · rw [take_append_drop]
  · intro first hmem second hmem'
    exact hfirst.first_le first (hperm.subset hmem) second (hrest.subset hmem')
  · have hlength := hperm.length_eq
    rw [length_take] at hlength
    by_cases hlimit : limit ≤ picked.length
    · exact take_left' (by omega)
    · have hnone : picked.drop limit = [] := drop_eq_nil_of_le (by omega)
      rw [hnone, mergeSort_nil, append_nil, take_of_length_le (by omega)]

/-- The SELECT outputs as many rows as the limit lets through, and with ORDER
BY the first ones of the sorted result. -/
def KeepsLimit (options : SelectOptions) (limit : ℕ) (arms : List (Arm σ X))
    (state : SelectState σ X) : Prop :=
  ∃ later rows, runSelect (options.withLimit (some limit)) arms state = some later ∧
    Filled later.table rows ∧
    rows.length = min limit (selected (options.withLimit none) arms state.others).length ∧
    (options.ordered = true → ∃ sorted,
      Arranges sorted (selected (options.withLimit none) arms state.others) ∧
      rows = (sorted.map Picked.columns).take limit)

/-- Without ORDER BY the number of rows is right exactly if no arm with all
keys fixed finds one when the limit is reached.  With ORDER BY the rows are
right if that is so, one arm finds all rows up to the limit, and these are the
first ones by their values. -/
theorem limited_select_keeps_limit (options : SelectOptions) (limit : ℕ) (arms : List (Arm σ X))
    (state : SelectState σ X) :
    (options.ordered = false →
      (KeepsLimit options limit arms state ↔ Within options limit arms ⟨state.others, []⟩)) ∧
    (options.ordered = true → Within options limit arms ⟨state.others, []⟩ →
      ((armRows (options.withLimit (some limit)) arms ⟨state.others, []⟩).filter
        (· ≠ [])).length ≤ 1 →
      FirstInOrder limit (selected (options.withLimit none) arms state.others) →
      KeepsLimit options limit arms state) := by
  obtain ⟨later, hlater, hfilled⟩ :=
    runSelect_filled (options.withLimit (some limit)) arms state
  have hsame : (options.withLimit (some limit)).ordered = options.ordered :=
    rfl
  rw [hsame] at hfilled
  constructor
  · intro hordered
    rw [if_neg (by simp [hordered])] at hfilled
    rw [← length_selected_iff]
    constructor
    · rintro ⟨other, rows, hother, hrows, hlength, _⟩
      rw [hlater, Option.some.injEq] at hother
      subst hother
      rw [← hlength, ← hfilled.unique hrows, length_map]
    · intro hlength
      refine ⟨later, _, hlater, hfilled, ?_, fun h => absurd h (by simp [hordered])⟩
      rw [length_map, hlength]
  · intro hordered hwithin hone hfirst
    obtain ⟨sorted, harranges, htake⟩ := hfirst.exists_arranges
    rw [if_pos hordered, orderedRows_of_one hone] at hfilled
    have hrows : (armRows (options.withLimit (some limit)) arms ⟨state.others, []⟩).flatten =
        (selected (options.withLimit none) arms state.others).take limit :=
      selected_withLimit hwithin
    rw [hrows, ← htake, map_take] at hfilled
    refine ⟨later, _, hlater, hfilled, ?_, fun _ => ⟨sorted, harranges, rfl⟩⟩
    rw [length_take, length_map, harranges.1.length_eq]

namespace LimitWitness

open OrderByWitness

/-- A name for each of two ids, the second of which is the first. -/
def reversed (key : MSubscript) : MSubscript :=
  if key = numberSubscript 1 then numberSubscript 2 else numberSubscript 1

/-- `SELECT id FROM names ORDER BY name` -/
def byName : List (Arm MSubscript Unit) :=
  [column reversed (.each fun _ => [numberSubscript 1, numberSubscript 2])]

/-- `SELECT id FROM names WHERE id = 1` -/
def byId : List (Arm MSubscript Unit) := [column id (fixed 1)]

def plain : SelectOptions := { ordered with ordered := false }

end LimitWitness

open OrderByWitness LimitWitness in
/-- LIMIT 0 outputs the row with a given key, and LIMIT 1 the first row by its
id in place of the first one by its name. -/
theorem limited_select_fails :
    (∃ later, runSelect (plain.withLimit (some 0)) byId start = some later ∧
    Filled later.table [[numberSubscript 1]]) ∧
    (∃ later, runSelect (ordered.withLimit (some 1)) byName start = some later ∧
    Filled later.table [[numberSubscript 1]]) ∧ ∀ sorted, Arranges sorted
    (selected (ordered.withLimit none) byName start.others) →
    (sorted.map Picked.columns).take 1 = [[numberSubscript 2]] := by
  refine ⟨?_, ?_, ?_⟩
  · obtain ⟨later, hlater, hfilled⟩ :=
      runSelect_filled (plain.withLimit (some 0)) byId start
    exact ⟨later, hlater, hfilled⟩
  · obtain ⟨later, hlater, hfilled⟩ :=
      runSelect_filled (ordered.withLimit (some 1)) byName start
    have hrows : (orderedRows (armRows (ordered.withLimit (some 1)) byName
        ⟨start.others, []⟩)).map Picked.columns = [[numberSubscript 1]] := by
      decide +kernel
    exact ⟨later, hlater, hrows ▸ hfilled⟩
  · intro sorted harranges
    have hall : ∀ first ∈ selected (ordered.withLimit none) byName
        start.others, ∀ second ∈ selected (ordered.withLimit none) byName
          start.others, first ≠ second → first.value ≤ second.value →
        first.columns = [numberSubscript 2] := by
      decide +kernel
    have hlength : sorted.length = 2 :=
      harranges.1.length_eq.trans (by decide +kernel)
    have hnodup : (selected (ordered.withLimit none) byName start.others).Nodup := by decide +kernel
    have hsorted := harranges.1.nodup_iff.mpr hnodup
    obtain ⟨first, second, rfl⟩ := length_eq_two.mp hlength
    have hfirst := hall first (harranges.1.subset (by simp)) second
      (harranges.1.subset (by simp)) (by simpa using hsorted) (by simpa using harranges.2)
    simp [hfirst]

end Octo
