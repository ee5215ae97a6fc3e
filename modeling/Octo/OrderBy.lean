/-
SELECT with ORDER BY.  Every arm of a SELECT puts its rows in order by
themselves and writes them over those of the arms before it; rows with an empty
value come last though the empty value collates first.
-/
import Octo.OrderRows

namespace Octo

open GlobalTree NestedLoops Subscripts NullSubscripts List

variable {σ X : Type*} [NullSubscripts σ]

section Runs

variable {options : SelectOptions} {arm : Arm σ X} {state : SelectState σ X}
  {trace : Trace σ X} {listed : List (List σ)} {base : ℕ}

/-- The table while an arm runs that started with `base` rows. -/
def TableDuring (options : SelectOptions) (listed : List (List σ)) (base : ℕ)
    (table : Global σ (Value σ)) (picked : List (Picked σ)) : Prop :=
  if options.ordered then
    base ≤ picked.length ∧ TableIs table picked.length listed (picked.drop base) base
  else TableIs table picked.length (picked.map Picked.columns) [] 0

/-- A state of the emitted code and the rows it has found. -/
structure Reflects (options : SelectOptions) (listed : List (List σ))
    (base : ℕ) (state : SelectState σ X) (trace : Trace σ X) : Prop where
  others : state.others = trace.others
  table : TableDuring options listed base state.table trace.picked

variable {table : Global σ (Value σ)} {picked : List (Picked σ)}

theorem TableDuring.root (htable : TableDuring options listed base table picked) :
    Value.asNumber (table.get []) = picked.length := by
  unfold TableDuring at htable
  split_ifs at htable with hordered
  · exact htable.2.root
  · exact htable.root

theorem TableDuring.snoc (row : Picked σ) (htable : TableDuring options listed base table picked) :
    TableDuring options listed base ((increment table []).set
    (outputPath options row.value (ofNat (picked.length + 1)))
    (Value.append ((increment table []).get
    (outputPath options row.value (ofNat (picked.length + 1)))) row.columns))
    (picked ++ [row]) := by
  unfold TableDuring at htable ⊢
  unfold outputPath
  split_ifs at htable ⊢ with hordered
  · obtain ⟨hbase, htable⟩ := htable
    have hlength : base + (picked.drop base).length = picked.length := by
      rw [length_drop]
      omega
    refine ⟨by rw [length_append]; omega, ?_⟩
    rw [← hlength] at htable ⊢
    rw [length_append, ← hlength, drop_append_of_le_length hbase]
    exact htable.stage row
  · have hlength : (picked.map Picked.columns).length = picked.length :=
      length_map _
    rw [← hlength] at htable ⊢
    simpa using htable.list row.columns

theorem Reflects.atLimit (hreflects : Reflects options listed base state trace) :
    atLimit options state.table = trace.full options := by
  rw [Octo.atLimit, Trace.full, hreflects.table.root]
  congr 1
  funext limit
  rw [Bool.eq_iff_iff]
  simp

theorem Reflects.selectRow (hreflects : Reflects options listed base state trace) (keys : List σ) :
    Reflects options listed base (selectRow options arm keys state)
    (pickRow options arm keys trace) := by
  have hroot : Value.asNumber ((increment state.table []).get []) = trace.picked.length + 1 := by
    rw [increment, Global.get_set_self, hreflects.table.root]
    rfl
  simp only [Octo.selectRow, pickRow, hreflects.others, hroot]
  split_ifs with hpasses
  · exact ⟨rfl, hreflects.table.snoc ⟨_, _, _⟩⟩
  · exact ⟨rfl, hreflects.table⟩

theorem Reflects.nest (arm : Arm σ X) (hreflects : Reflects options listed base state trace) :
    Reflects options listed base (nest (fun state => Octo.atLimit options state.table)
    (Octo.selectRow options arm) arm.levels [] state) (traceArm options trace arm) := by
  rw [traceArm, nest_eq_forEach, nest_eq_forEach]
  refine forEach_related (R := Reflects options listed base) ?_ ?_ hreflects
  · intro state trace hreflects
    simp [test, hreflects.atLimit]
  · intro keys state trace hreflects _
    exact hreflects.selectRow keys

end Runs

section Traces

variable (options : SelectOptions)

theorem pickRow_picked (arm : Arm σ X) (keys : List σ) (trace : Trace σ X) :
    (pickRow options arm keys trace).picked = trace.picked ∨
    ∃ row, (pickRow options arm keys trace).picked = trace.picked ++ [row] := by
  unfold pickRow
  dsimp only
  split
  · exact Or.inr ⟨_, rfl⟩
  · exact Or.inl rfl

theorem picked_isPrefix_forEach (arm : Arm σ X) (quit : Trace σ X → Bool) (tuples : List (List σ))
    (trace : Trace σ X) : trace.picked <+:
    (forEach quit (pickRow options arm) tuples trace).picked := by
  refine forEach_rule (fun later : Trace σ X => trace.picked <+: later.picked) ?_ prefix_rfl
  intro keys later hfront _
  rcases pickRow_picked options arm keys later with heq | ⟨row, heq⟩
  · rwa [heq]
  · rw [heq]
    exact hfront.trans (prefix_append _ _)

/-- An arm only adds rows. -/
theorem picked_isPrefix_traceArm (trace : Trace σ X) (arm : Arm σ X) :
    trace.picked <+: (traceArm options trace arm).picked := by
  rw [traceArm, nest_eq_forEach]
  exact picked_isPrefix_forEach options arm _ _ trace

theorem traceArm_picked (trace : Trace σ X) (arm : Arm σ X) :
    (traceArm options trace arm).picked = trace.picked ++
      (traceArm options trace arm).picked.drop trace.picked.length := by
  obtain ⟨rest, hrest⟩ := picked_isPrefix_traceArm options trace arm
  rw [← hrest, drop_left]

theorem append_flatten_armRows (arms : List (Arm σ X)) (trace : Trace σ X) :
    trace.picked ++ (armRows options arms trace).flatten =
      (arms.foldl (traceArm options) trace).picked := by
  induction arms generalizing trace with
  | nil => simp [armRows]
  | cons arm rest ih =>
    rw [armRows, flatten_cons, ← append_assoc, ← traceArm_picked, ih, foldl_cons]

/-- Finding rows has nothing to do with their order. -/
theorem traceArm_ordered (ordered : Bool) (trace : Trace σ X) (arm : Arm σ X) :
    traceArm { options with ordered := ordered } trace arm = traceArm options trace arm := rfl

theorem armRows_ordered (ordered : Bool) (arms : List (Arm σ X)) (trace : Trace σ X) :
    armRows { options with ordered := ordered } arms trace = armRows options arms trace := by
  induction arms generalizing trace with
  | nil => rfl
  | cons arm rest ih => simp [armRows, traceArm_ordered, ih]

end Traces

section Tables

variable {options : SelectOptions}

/-- Without ORDER BY the rows of all arms follow each other. -/
theorem foldlM_runArm_plain (hordered : options.ordered = false) (arms : List (Arm σ X))
    (state : SelectState σ X) (trace : Trace σ X) (hothers : state.others = trace.others)
    (htable : TableIs state.table trace.picked.length (trace.picked.map Picked.columns) [] 0) :
    ∃ later, arms.foldlM (runArm options) state = some later ∧ Filled later.table ((trace.picked ++
    (armRows options arms trace).flatten).map Picked.columns) := by
  induction arms generalizing state trace with
  | nil => exact ⟨state, rfl, by simpa [armRows] using htable.filled⟩
  | cons arm rest ih =>
    have hreflects : Reflects options [] 0 state trace :=
      ⟨hothers, by rwa [TableDuring, if_neg (by simp [hordered])]⟩
    have harm := hreflects.nest arm
    have htable := harm.table
    rw [TableDuring, if_neg (by simp [hordered])] at htable
    obtain ⟨later, hlater, hfilled⟩ := ih _ _ harm.others htable
    refine ⟨later, ?_, ?_⟩
    · rw [foldlM_cons, runArm]
      simpa [hordered] using hlater
    · rwa [armRows, flatten_cons, ← append_assoc, ← traceArm_picked]

/-- With ORDER BY every arm writes its rows over the first ones. -/
theorem foldlM_runArm_ordered (hordered : options.ordered = true) (arms : List (Arm σ X))
    (state : SelectState σ X) (trace : Trace σ X) (hothers : state.others = trace.others)
    (listed : List (Picked σ)) (htable : TableIs state.table trace.picked.length
    (listed.map Picked.columns) [] 0) : ∃ later, arms.foldlM (runArm options) state = some later ∧
    Filled later.table (((armRows options arms trace).foldl
    (fun listed block => overlay (copied block) listed) listed).map Picked.columns) := by
  induction arms generalizing state trace listed with
  | nil => exact ⟨state, rfl, htable.filled⟩
  | cons arm rest ih =>
    have hreflects : Reflects options (listed.map Picked.columns)
        trace.picked.length state trace := by
      refine ⟨hothers, ?_⟩
      rw [TableDuring, if_pos hordered, drop_length]
      exact ⟨le_refl _, htable.root, fun path value hpath => by
        rw [htable.get_iff path value hpath]
        simp⟩
    have harm := hreflects.nest arm
    have hstaged := harm.table
    rw [TableDuring, if_pos hordered] at hstaged
    obtain ⟨table, horder, htable⟩ := hstaged.2.orderRows
    rw [← map_overlay] at htable
    obtain ⟨later, hlater, hfilled⟩ := ih ⟨table, _⟩ _ harm.others _ htable
    refine ⟨later, ?_, hfilled⟩
    rw [foldlM_cons, runArm]
    simpa [hordered, horder] using hlater

/-- The table after a SELECT. -/
theorem runSelect_filled (options : SelectOptions) (arms : List (Arm σ X))
    (state : SelectState σ X) : ∃ later, runSelect options arms state = some later ∧
    Filled later.table ((if options.ordered then
          orderedRows (armRows options arms ⟨state.others, []⟩)
        else selected options arms state.others).map Picked.columns) := by
  have hstart := tableIs_kill state.table
  split_ifs with hordered
  · exact foldlM_runArm_ordered hordered arms ⟨state.table.kill [], _⟩
      ⟨state.others, []⟩ rfl [] hstart
  · exact foldlM_runArm_plain (by simpa using hordered) arms
      ⟨state.table.kill [], _⟩ ⟨state.others, []⟩ rfl hstart

end Tables

section Copied

theorem mem_copiedValues {picked : List (Picked σ)} {value : σ} :
    value ∈ copiedValues picked ↔ value ∈ picked.map Picked.value := by
  rw [copiedValues, mem_append, Finset.mem_sort, mem_toFinset, mem_filter]
  by_cases hnull : value = null
  · subst hnull
    simp
  · simp [hnull]

theorem nodup_copiedValues (picked : List (Picked σ)) : (copiedValues picked).Nodup := by
  rw [copiedValues, nodup_append]
  refine ⟨Finset.sort_nodup _ _, by split <;> simp, ?_⟩
  intro first hfirst second hsecond
  rw [Finset.mem_sort, mem_toFinset, mem_filter] at hfirst
  split at hsecond
  · rw [mem_singleton.mp hsecond]
    simpa using hfirst.2
  · simp at hsecond

/-- All rows are copied. -/
theorem copied_perm (picked : List (Picked σ)) : (copied picked).Perm picked := by
  rw [perm_iff_count]
  intro row
  have hcount : ∀ value, (picked.filter fun other =>
      other.value = value).count row =
        if value = row.value then picked.count row else 0 := by
    intro value
    split_ifs with hvalue
    · exact count_filter (by simp [hvalue])
    · rw [count_eq_zero]
      intro hmem
      exact hvalue (by simpa [eq_comm] using (mem_filter.mp hmem).2)
  rw [copied, count_flatMap]
  simp only [Function.comp_def, hcount]
  by_cases hrow : row ∈ picked
  · have hvalue : row.value ∈ copiedValues picked :=
      mem_copiedValues.mpr (mem_map_of_mem hrow)
    rw [← sum_toFinset _ (nodup_copiedValues picked), Finset.sum_ite_eq',
      if_pos (mem_toFinset.mpr hvalue)]
  · rw [count_eq_zero.mpr hrow]
    simp

@[simp] theorem copied_nil : copied ([] : List (Picked σ)) = [] :=
  (copied_perm []).eq_nil

/-- The rows of a SELECT in collating order of their values. -/
def Arranges (rows picked : List (Picked σ)) : Prop :=
  rows.Perm picked ∧ rows.Pairwise fun first second => first.value ≤ second.value

/-- Values with the empty one behind the others are in order only if there is
nothing else. -/
theorem copied_arranges_iff (picked : List (Picked σ)) :
    Arranges (copied picked) picked ↔ null ∈ picked.map Picked.value →
        ∀ row ∈ picked, row.value = null := by
  constructor
  · rintro ⟨_, hsorted⟩ hnull row hrow
    by_contra hne
    have hvalue : row.value ∈ (((picked.map Picked.value).filter
        (· ≠ null)).toFinset.sort (· ≤ ·)) := by
      rw [Finset.mem_sort, mem_toFinset, mem_filter]
      exact ⟨mem_map_of_mem hrow, by simpa using hne⟩
    obtain ⟨last, hlast, hlastNull⟩ := mem_map.mp hnull
    rw [copied, copiedValues, if_pos hnull, flatMap_append, pairwise_append] at hsorted
    have hle := hsorted.2.2 row (mem_flatMap.mpr ⟨row.value, hvalue, by simp [hrow]⟩) last
      (by simp [hlast, hlastNull])
    rw [hlastNull] at hle
    exact hne (le_antisymm hle (null_le _))
  · intro hnull
    refine ⟨copied_perm picked, ?_⟩
    have hvalues : (copiedValues picked).Pairwise (· ≤ ·) := by
      rw [copiedValues, pairwise_append]
      refine ⟨(Finset.sortedLT_sort _).pairwise.imp le_of_lt, by split <;> simp, ?_⟩
      intro first hfirst second hsecond
      rw [Finset.mem_sort, mem_toFinset, mem_filter] at hfirst
      obtain ⟨row, hrow, rfl⟩ := mem_map.mp hfirst.1
      split at hsecond
      · rename_i hmem
        rw [hnull hmem row hrow]
        exact null_le _
      · simp at hsecond
    rw [copied, pairwise_flatMap]
    constructor
    · intro value _
      refine pairwise_of_forall_mem_list ?_
      intro first hfirst second hsecond
      have hfirst := (mem_filter.mp hfirst).2
      have hsecond := (mem_filter.mp hsecond).2
      simp only [decide_eq_true_eq] at hfirst hsecond
      rw [hfirst, hsecond]
    · refine hvalues.imp ?_
      intro value next hle first hfirst second hsecond
      have hfirst := (mem_filter.mp hfirst).2
      have hsecond := (mem_filter.mp hsecond).2
      simp only [decide_eq_true_eq] at hfirst hsecond
      rwa [hfirst, hsecond]

/-- Where the columns of a row determine its value, another arrangement cannot
show the columns in the order of the copy. -/
theorem exists_arranges_columns_iff {picked : List (Picked σ)}
    (hcolumns : ∀ first ∈ picked, ∀ second ∈ picked, first.columns = second.columns →
      first.value = second.value) :
    (∃ rows, Arranges rows picked ∧
      rows.map Picked.columns = (copied picked).map Picked.columns) ↔
    (null ∈ picked.map Picked.value → ∀ row ∈ picked, row.value = null) := by
  rw [← copied_arranges_iff]
  constructor
  · rintro ⟨rows, ⟨hperm, hsorted⟩, heq⟩
    refine ⟨copied_perm picked, ?_⟩
    have hvalues : rows.map Picked.value = (copied picked).map Picked.value := by
      apply ext_getElem (by simpa using congrArg List.length heq)
      intro i hi hi'
      rw [length_map] at hi hi'
      have hcolumn : rows[i].columns = (copied picked)[i].columns := by
        simpa [hi, hi'] using congrArg (·[i]?) heq
      rw [getElem_map, getElem_map]
      exact hcolumns _ (hperm.subset (getElem_mem hi)) _
        ((copied_perm picked).subset (getElem_mem hi')) hcolumn
    rw [← pairwise_map] at hsorted ⊢
    rwa [← hvalues]
  · intro harranges
    exact ⟨copied picked, harranges, rfl⟩

end Copied

section Blocks

@[simp] theorem overlay_nil {α : Type*} (old : List α) : overlay [] old = old := rfl

theorem length_overlay {α : Type*} (new old : List α) :
    (overlay new old).length = max new.length old.length := by
  rw [overlay, length_append, length_drop]
  omega

theorem foldl_max_le (lengths : List ℕ) (first : ℕ) :
    lengths.foldl max first ≤ first + lengths.sum := by
  induction lengths generalizing first with
  | nil => simp
  | cons length rest ih =>
    have hrest := ih (max first length)
    rw [foldl_cons, sum_cons]
    omega

/-- The greatest of some numbers is their sum if there is at most one that is
not zero. -/
theorem foldl_max_eq_sum_iff (lengths : List ℕ) (first : ℕ) :
    lengths.foldl max first = first + lengths.sum ↔
      ((first :: lengths).filter (· ≠ 0)).length ≤ 1 := by
  induction lengths generalizing first with
  | nil =>
    by_cases hfirst : first = 0 <;> simp [hfirst]
  | cons length rest ih =>
    rw [foldl_cons, sum_cons]
    by_cases hfirst : first = 0
    · have := ih length
      simp_all
    · by_cases hlength : length = 0
      · have := ih first
        simp_all
      · have hle := foldl_max_le rest (max first length)
        constructor
        · intro heq
          omega
        · intro hone
          simp [hfirst, hlength] at hone

variable {blocks : List (List (Picked σ))}

theorem length_orderedRows (blocks : List (List (Picked σ))) (listed : List (Picked σ)) :
    (blocks.foldl (fun listed block => overlay (copied block) listed)
    listed).length = (blocks.map List.length).foldl max listed.length := by
  induction blocks generalizing listed with
  | nil => rfl
  | cons block rest ih =>
    rw [foldl_cons, ih, length_overlay, (copied_perm block).length_eq,
      map_cons, foldl_cons, Nat.max_comm]

theorem foldl_overlay_of_empty (hblocks : ∀ block ∈ blocks, block = []) (listed : List (Picked σ)) :
    blocks.foldl (fun listed block => overlay (copied block) listed) listed =
      listed := by
  induction blocks with
  | nil => rfl
  | cons block rest ih =>
    rw [foldl_cons, hblocks block (by simp), copied_nil, overlay_nil]
    exact ih fun other hother => hblocks other (mem_cons_of_mem _ hother)

/-- With the rows of one arm only, these are in order. -/
theorem orderedRows_of_one (hone : (blocks.filter (· ≠ [])).length ≤ 1) :
    orderedRows blocks = copied blocks.flatten := by
  unfold orderedRows
  induction blocks with
  | nil => simp
  | cons block rest ih =>
    by_cases hblock : block = []
    · subst hblock
      rw [foldl_cons, copied_nil, overlay_nil, flatten_cons]
      exact ih (by simpa using hone)
    · have hrest : ∀ other ∈ rest, other = [] := by
        simpa [hblock] using hone
      rw [foldl_cons, foldl_overlay_of_empty hrest, flatten_cons,
        flatten_eq_nil_iff.mpr hrest, append_nil]
      simp [overlay]

/-- No row is lost only if at most one arm finds rows. -/
theorem length_orderedRows_eq_iff (blocks : List (List (Picked σ))) :
    (orderedRows blocks).length = blocks.flatten.length ↔ (blocks.filter (· ≠ [])).length ≤ 1 := by
  rw [orderedRows, length_orderedRows, length_flatten]
  have hiff := foldl_max_eq_sum_iff (blocks.map List.length) 0
  have hfilter : ((blocks.map List.length).filter (· ≠ 0)).length =
      (blocks.filter (· ≠ [])).length := by
    rw [filter_map, length_map]
    congr 1
    apply filter_congr
    intro block _
    simp
  rw [← hfilter]
  simpa using hiff

end Blocks

/-- The code without ORDER BY lists the rows as they are found.  With ORDER BY
it lists them in collating order, under the ids from 1 on, exactly if at most
one arm finds rows and the rows with an empty value may stand behind the
others. -/
theorem ordered_select_lists_rows_iff (options : SelectOptions) (arms : List (Arm σ X))
    (state : SelectState σ X) :
    (∃ plain, runSelect { options with ordered := false } arms state = some plain ∧
      Filled plain.table ((selected options arms state.others).map Picked.columns)) ∧
    ((∃ later rows, runSelect { options with ordered := true } arms state = some later ∧
        Arranges rows (selected options arms state.others) ∧
        Filled later.table (rows.map Picked.columns)) ↔
      ((armRows options arms ⟨state.others, []⟩).filter (· ≠ [])).length ≤ 1 ∧
      ∃ rows, Arranges rows (selected options arms state.others) ∧ rows.map Picked.columns =
        (copied (selected options arms state.others)).map Picked.columns) ∧
    ((∀ first ∈ selected options arms state.others, ∀ second ∈ selected options arms state.others,
        first.columns = second.columns → first.value = second.value) →
      ((∃ rows, Arranges rows (selected options arms state.others) ∧ rows.map Picked.columns =
          (copied (selected options arms state.others)).map Picked.columns) ↔
        (null ∈ (selected options arms state.others).map Picked.value →
          ∀ row ∈ selected options arms state.others, row.value = null))) := by
  obtain ⟨plain, hplain, hfilled⟩ :=
    runSelect_filled { options with ordered := false } arms state
  obtain ⟨later, hlater, hordered⟩ :=
    runSelect_filled { options with ordered := true } arms state
  simp only [Bool.false_eq_true, ↓reduceIte, selected, armRows_ordered] at hfilled hordered ⊢
  refine ⟨⟨plain, hplain, hfilled⟩, ?_, exists_arranges_columns_iff⟩
  constructor
  · rintro ⟨other, rows, hother, harranges, hrows⟩
    rw [hlater, Option.some.injEq] at hother
    subst hother
    have heq := hrows.unique hordered
    have hone : ((armRows options arms ⟨state.others, []⟩).filter (· ≠ [])).length ≤ 1 := by
      rw [← length_orderedRows_eq_iff, ← harranges.1.length_eq]
      simpa using (congrArg List.length heq).symm
    refine ⟨hone, rows, harranges, ?_⟩
    rw [heq, orderedRows_of_one hone]
  · rintro ⟨hone, rows, harranges, heq⟩
    rw [orderedRows_of_one hone, ← heq] at hordered
    exact ⟨later, rows, hlater, harranges, hordered⟩

namespace OrderByWitness

/-- A table with a name for each id. -/
def column (name : MSubscript → MSubscript) (level : Level MSubscript) : Arm MSubscript Unit where
  levels := [level]
  deferred := fun _ others => others
  whereHolds := fun _ _ => true
  columns := fun keys _ => keys
  orderValue := fun keys _ => (keys.map name).headD ⊥
  tracked := fun keys => numberSubscript 1 :: keys

/-- `id = n` -/
def fixed (n : ℕ) : Level MSubscript :=
  .only (fun _ => numberSubscript n) fun _ => true

def start : SelectState MSubscript Unit := ⟨.empty, ⟨.empty, .empty, ()⟩⟩

def ordered : SelectOptions := ⟨none, true, false, true, true⟩

/-- `SELECT id FROM names WHERE id = 1 OR id = 2 ORDER BY id` -/
def twoArms : List (Arm MSubscript Unit) :=
  [column id (fixed 1), column id (fixed 2)]

/-- `SELECT id FROM names ORDER BY name`, where the first name is empty. -/
def emptyName : List (Arm MSubscript Unit) :=
  [column (fun key => if key = numberSubscript 1 then ⊥ else key)
    (.each fun _ => [numberSubscript 1, numberSubscript 2])]

theorem not_listed {arms : List (Arm MSubscript Unit)}
    (hrows : ∀ rows, Arranges rows (selected ordered arms start.others) → rows.map Picked.columns ≠
    (orderedRows (armRows ordered arms ⟨start.others, []⟩)).map Picked.columns) :
    ¬ ∃ later rows, runSelect ordered arms start = some later ∧
    Arranges rows (selected ordered arms start.others) ∧
    Filled later.table (rows.map Picked.columns) := by
  rintro ⟨later, rows, hlater, harranges, hfilled⟩
  obtain ⟨other, hother, hordered⟩ := runSelect_filled ordered arms start
  rw [hlater, Option.some.injEq] at hother
  subst hother
  exact hrows rows harranges (hfilled.unique hordered)

end OrderByWitness

open OrderByWitness in
/-- One of the rows of two arms is lost, and a row with an empty value comes
last. -/
theorem ordered_select_not_listed : (¬ ∃ later rows, runSelect ordered twoArms start = some later ∧
    Arranges rows (selected ordered twoArms start.others) ∧
    Filled later.table (rows.map Picked.columns)) ∧
    ¬ ∃ later rows, runSelect ordered emptyName start = some later ∧
    Arranges rows (selected ordered emptyName start.others) ∧
    Filled later.table (rows.map Picked.columns) := by
  constructor
  · apply not_listed
    intro rows harranges heq
    have hlength := harranges.1.length_eq
    have hcolumns := congrArg List.length heq
    rw [length_map, hlength] at hcolumns
    revert hcolumns
    decide +kernel
  · apply not_listed
    intro rows harranges heq
    have hall : ∀ first ∈ selected ordered emptyName start.others,
        ∀ second ∈ selected ordered emptyName start.others, [first.columns, second.columns] =
        (orderedRows (armRows ordered emptyName ⟨start.others, []⟩)).map
        Picked.columns → ¬ first.value ≤ second.value := by
      decide +kernel
    have hlength : rows.length = 2 :=
      harranges.1.length_eq.trans (by decide +kernel)
    obtain ⟨first, second, rfl⟩ := length_eq_two.mp hlength
    exact hall first (harranges.1.subset (by simp)) second
      (harranges.1.subset (by simp)) heq (by simpa using harranges.2)

end Octo
