/-
The run of the plans of a sub-query in a WHERE.  They store a row with its
columns as subscripts.  Rows are taken with the tuple of keys they were found
at, which split arms note down so that no tuple gives two rows.
-/
import Octo.EmittedPlan

namespace Octo

open GlobalTree Subscripts List Global

/-- A row that satisfies the WHERE of a plan: the node of the tracker for its
keys, and its columns. -/
structure Found (σ : Type*) where
  tracked : List σ
  columns : List σ
deriving DecidableEq, Repr

variable {σ : Type*} [Subscripts σ] {n uniqueId : ℕ}

structure TrackedCursor (σ : Type*) [Subscripts σ] where
  cursor : Cursor σ
  dupl : Global σ (Value σ)

namespace TrackedCursor

def empty : TrackedCursor σ := ⟨.empty, .empty⟩

def output (state : TrackedCursor σ) (uniqueId : ℕ) : Global σ (Value σ) :=
  state.cursor.output uniqueId

end TrackedCursor

/-- The condition on a row that is left once the WHERE holds. -/
def foundPasses (plan : PhysicalPlan) (found : Found σ) (state : TrackedCursor σ) : Bool :=
  rowPasses plan found.columns state.cursor &&
    (!plan.emitDuplicationCheck || state.dupl.data found.tracked == 0)

/-- Output a row and note down its keys. -/
def noteFound (plan : PhysicalPlan) (state : TrackedCursor σ)
    (found : Found σ) : TrackedCursor σ where
  cursor := outputRow plan found.columns state.cursor
  dupl :=
    if plan.emitDuplicationCheck then
      state.dupl.set found.tracked (.number 1)
    else state.dupl

/-- The body of the innermost loop, with the check against rows of other
arms. -/
def foundRow (plan : PhysicalPlan) (state : TrackedCursor σ) (found : Found σ) : TrackedCursor σ :=
  if foundPasses plan found state then noteFound plan state found else state

/-- The code of a plan, without the loops behind the rows that ORDER BY adds. -/
def runFound (plan : PhysicalPlan) (founds : List (Found σ))
    (state : TrackedCursor σ) : TrackedCursor σ :=
  let state := founds.foldl (foundRow plan)
    { state with cursor := startPlan plan state.cursor }
  if plan.setOperation = .intersect then
    { state with cursor := deleteRemaining plan state.cursor }
  else state

def runFounds (steps : List (PhysicalPlan × List (Found σ)))
    (state : TrackedCursor σ) : TrackedCursor σ :=
  steps.foldl (fun state step => runFound step.1 step.2 state) state

variable {plan : PhysicalPlan}

variable {found : Found σ} {state : TrackedCursor σ}

theorem foundPasses_eq_true :
    foundPasses plan found state = true ↔ rowPasses plan found.columns state.cursor = true ∧
    (plan.emitDuplicationCheck = true → ¬ state.dupl.HasData found.tracked) := by
  rw [foundPasses, Bool.and_eq_true, ← data_ne_zero, not_not]
  cases plan.emitDuplicationCheck <;> simp

/-- The rows of a chain: all of them have `n` columns, and the keys of a row,
which stand with the ids of their tables, determine its columns. -/
structure Keyed (n : ℕ) (rows : List (Found σ)) : Prop where
  length : ∀ found ∈ rows, found.columns.length = n
  columns : ∀ first ∈ rows, ∀ second ∈ rows,
    first.tracked <+: second.tracked → first.columns = second.columns

/-- A plan of a sub-query in a WHERE. -/
structure Stashes (uniqueId : ℕ) (plan : PhysicalPlan) : Prop where
  output : plan.outputKey.uniqueId = uniqueId
  stash : plan.stashColumnsInKeys = true

/-- The first plan of a chain and the plans of a UNION only add rows. -/
def PhysicalPlan.Adds (plan : PhysicalPlan) : Prop :=
  plan.setOperation = .notSet ∨ plan.setOperation = .union

section Project

variable {plan : PhysicalPlan}

theorem outputRow_of_adds (hadds : plan.Adds) (columns : List σ) (cursor : Cursor σ) :
    outputRow plan columns cursor = projectRow plan columns cursor := by
  unfold outputRow
  rcases hadds with hoperation | hoperation <;> rw [hoperation]

/-- A row is found below each of its first columns. -/
theorem hasData_projectRow (hplan : Stashes uniqueId plan) (columns : List σ) (cursor : Cursor σ)
    (path : List σ) : ((projectRow plan columns cursor).output uniqueId).HasData path ↔ path <+:
    columns ∨ (cursor.output uniqueId).HasData path := by
  obtain ⟨rfl, hstash⟩ := hplan
  simp only [projectRow, hstash, if_true, Function.update_self, increment, hasData_set, prefix_nil]
  constructor
  · rintro (hpre | rfl | hdata)
    · exact .inl hpre
    · exact .inl nil_prefix
    · exact .inr hdata
  · rintro (hpre | hdata)
    · exact .inl hpre
    · exact .inr (.inr hdata)

variable {cursor : Cursor σ}

theorem hasData_index_of_projectRow {columns row : List σ} (hlength : columns.length = row.length)
    (hdata : (projectRow plan columns cursor).index.HasData row) :
    row = columns ∨ cursor.index.HasData row := by
  simp only [projectRow] at hdata
  split at hdata
  · simp only [increment, hasData_set] at hdata
    rcases hdata with hpre | hpre | hdata
    · exact .inl (hpre.eq_of_length hlength.symm)
    · exact .inl ((prefix_of_prefix_length_le hpre
        (prefix_append _ _) hlength.ge).eq_of_length hlength.symm)
    · exact .inr hdata
  · exact .inr hdata

theorem index_projectRow_mono (columns : List σ) {row : List σ}
    (hdata : cursor.index.HasData row) : (projectRow plan columns cursor).index.HasData row := by
  simp only [projectRow]
  split
  · simp only [increment, hasData_set]
    exact .inr (.inr hdata)
  · exact hdata

end Project

/-- What plans that only add rows leave of a cursor: the index and the tracker
keep what they had, and what is new there stands for stored rows. -/
structure Grown (uniqueId : ℕ) (rows : List (Found σ)) (start state : TrackedCursor σ) : Prop where
  indexKeeps : ∀ row, start.cursor.index.HasData row → state.cursor.index.HasData row
  duplKeeps : ∀ tracked, start.dupl.HasData tracked → state.dupl.HasData tracked
  index : ∀ found ∈ rows, state.cursor.index.HasData found.columns →
    start.cursor.index.HasData found.columns ∨ (state.output uniqueId).HasData found.columns
  dupl : ∀ found ∈ rows, state.dupl.HasData found.tracked → start.dupl.HasData found.tracked ∨
    (state.output uniqueId).HasData found.columns

theorem Grown.refl (uniqueId : ℕ) (rows : List (Found σ))
    (state : TrackedCursor σ) : Grown uniqueId rows state state :=
  ⟨fun _ => id, fun _ => id, fun _ _ => .inl, fun _ _ => .inl⟩

theorem rowPasses_iff (hadds : plan.Adds)
    {columns : List σ} {cursor : Cursor σ} : rowPasses plan columns cursor = true ↔
    (plan.distinctValues = true → ¬ cursor.index.HasData columns) := by
  rw [rowPasses, ← data_ne_zero, not_not]
  rcases hadds with hoperation | hoperation <;> rw [hoperation] <;>
    cases plan.distinctValues <;> simp

section Adds

variable {plan : PhysicalPlan} {rows : List (Found σ)} {start state : TrackedCursor σ}

variable {found : Found σ}

section

variable (hgrown : Grown uniqueId rows start state)
include hgrown

/-- A row that passes stands in the way of later ones only where it is
stored. -/
theorem Grown.noteFound (hrows : Keyed n rows) (hplan : Stashes uniqueId plan)
    (hadds : plan.Adds) (hfound : found ∈ rows) :
    Grown uniqueId rows start (noteFound plan state found) := by
  have houtput := hasData_projectRow hplan found.columns state.cursor
  rw [Octo.noteFound, outputRow_of_adds hadds]
  refine ⟨?_, ?_, ?_, ?_⟩
  · intro row hdata
    exact index_projectRow_mono _ (hgrown.indexKeeps row hdata)
  · intro tracked hdata
    split
    · exact hasData_set.mpr (.inr (hgrown.duplKeeps tracked hdata))
    · exact hgrown.duplKeeps tracked hdata
  · intro other hother hdata
    have hlength : found.columns.length = other.columns.length := by
      rw [hrows.length found hfound, hrows.length other hother]
    rcases hasData_index_of_projectRow hlength hdata with heq | hdata
    · exact .inr ((houtput _).mpr (.inl (heq ▸ prefix_rfl)))
    · exact (hgrown.index other hother hdata).imp_right
        fun hstored => (houtput _).mpr (.inr hstored)
  · intro other hother hdata
    have hcases : other.tracked <+: found.tracked ∨ state.dupl.HasData other.tracked := by
      split at hdata
      · exact hasData_set.mp hdata
      · exact .inr hdata
    rcases hcases with hpre | hdata
    · have heq := hrows.columns other hother found hfound hpre
      exact .inr ((houtput _).mpr (.inl (heq ▸ prefix_rfl)))
    · exact (hgrown.dupl other hother hdata).imp_right
        fun hstored => (houtput _).mpr (.inr hstored)

/-- A row that could be stored at the start of the chain and cannot be at its
turn has been stored. -/
theorem Grown.stored (hadds : plan.Adds)
    (hfound : found ∈ rows) (hstart : foundPasses plan found start = true)
    (hblocked : ¬ foundPasses plan found state = true) :
    (state.output uniqueId).HasData found.columns := by
  obtain ⟨hrow, hfree⟩ := foundPasses_eq_true.mp hstart
  rw [foundPasses_eq_true, rowPasses_iff hadds] at hblocked
  rw [rowPasses_iff hadds] at hrow
  by_cases hindex : plan.distinctValues = true ∧ state.cursor.index.HasData found.columns
  · exact (hgrown.index found hfound hindex.2).resolve_left (hrow hindex.1)
  · have htracked : plan.emitDuplicationCheck = true ∧ state.dupl.HasData found.tracked := by
      by_contra hnone
      exact hblocked ⟨fun hdistinct hdata => hindex ⟨hdistinct, hdata⟩,
        fun hcheck hdata => hnone ⟨hcheck, hdata⟩⟩
    exact (hgrown.dupl found hfound htracked.2).resolve_left (hfree htracked.1)

theorem Grown.passes_start (hadds : plan.Adds)
    (hpasses : foundPasses plan found state = true) : foundPasses plan found start = true := by
  rw [foundPasses_eq_true, rowPasses_iff hadds] at hpasses ⊢
  exact ⟨fun hdistinct hdata => hpasses.1 hdistinct (hgrown.indexKeeps _ hdata),
    fun hcheck hdata => hpasses.2 hcheck (hgrown.duplKeeps _ hdata)⟩

/-- One row of a chain that only adds rows. -/
theorem Grown.foundRow (hrows : Keyed n rows) (hplan : Stashes uniqueId plan)
    (hadds : plan.Adds) (hfound : found ∈ rows) :
    Grown uniqueId rows start (foundRow plan state found) ∧
    ∀ x, ((foundRow plan state found).output uniqueId).HasData [x] ↔
    (state.output uniqueId).HasData [x] ∨ foundPasses plan found start = true ∧ [x] <+:
    found.columns := by
  unfold Octo.foundRow
  split_ifs with hpasses
  · refine ⟨hgrown.noteFound hrows hplan hadds hfound, fun x => ?_⟩
    have hstart := hgrown.passes_start hadds hpasses
    rw [TrackedCursor.output, Octo.noteFound, outputRow_of_adds hadds,
      hasData_projectRow hplan, or_comm, and_iff_right hstart]
    rfl
  · refine ⟨hgrown, fun x => ⟨.inl, ?_⟩⟩
    rintro (hdata | ⟨hstart, hpre⟩)
    · exact hdata
    · exact (hgrown.stored hadds hfound hstart hpasses).shorten hpre

end

/-- The rows of one plan. -/
theorem Grown.foundRows (hrows : Keyed n rows) (hplan : Stashes uniqueId plan)
    (hadds : plan.Adds) {founds : List (Found σ)}
    (hfounds : ∀ found ∈ founds, found ∈ rows) (hgrown : Grown uniqueId rows start state) :
    Grown uniqueId rows start (founds.foldl (Octo.foundRow plan) state) ∧
    ∀ x, ((founds.foldl (Octo.foundRow plan) state).output uniqueId).HasData
    [x] ↔ (state.output uniqueId).HasData [x] ∨
    ∃ found ∈ founds, foundPasses plan found start = true ∧ [x] <+: found.columns := by
  induction founds generalizing state with
  | nil => exact ⟨hgrown, by simp⟩
  | cons found founds ih =>
    obtain ⟨hnext, hfirst⟩ :=
      hgrown.foundRow hrows hplan hadds (hfounds found (by simp))
    obtain ⟨hlast, hothers⟩ := ih (fun other hother =>
      hfounds other (mem_cons_of_mem _ hother)) hnext
    refine ⟨hlast, fun x => ?_⟩
    rw [foldl_cons, hothers, hfirst, or_assoc, exists_mem_cons_iff]

/-- A chain that only adds rows stores those that could be stored at its
start. -/
theorem Grown.runFounds (hrows : Keyed n rows) {steps : List (PhysicalPlan × List (Found σ))}
    (hsteps : ∀ step ∈ steps, Stashes uniqueId step.1 ∧
    step.1.setOperation = .union ∧ ∀ found ∈ step.2, found ∈ rows)
    (hgrown : Grown uniqueId rows start state) (x : σ) :
    ((runFounds steps state).output uniqueId).HasData [x] ↔
    (state.output uniqueId).HasData [x] ∨ ∃ step ∈ steps,
    ∃ found ∈ step.2, foundPasses step.1 found start = true ∧ [x] <+: found.columns := by
  induction steps generalizing state with
  | nil => simp [Octo.runFounds]
  | cons step steps ih =>
    obtain ⟨hplan, hunion, hfounds⟩ := hsteps step (by simp)
    have hrun : runFound step.1 step.2 state = step.2.foldl (Octo.foundRow step.1) state := by
      simp [runFound, startPlan, hunion]
    obtain ⟨hnext, hfirst⟩ :=
      hgrown.foundRows hrows hplan (.inr hunion) hfounds
    have hothers := ih (fun other hother =>
      hsteps other (mem_cons_of_mem _ hother)) hnext
    rw [Octo.runFounds, foldl_cons, hrun, ← Octo.runFounds, hothers,
      hfirst, or_assoc, exists_mem_cons_iff]

end Adds

variable {founds : List (Found σ)} {steps : List (PhysicalPlan × List (Found σ))}

/-- The first plan of a chain starts with an empty output. -/
theorem runFounds_hasData (hplan : Stashes uniqueId plan) (hfirst : plan.setOperation = .notSet)
    (hsteps : ∀ step ∈ steps, Stashes uniqueId step.1 ∧ step.1.setOperation = .union)
    (hrows : Keyed n (((plan, founds) :: steps).flatMap Prod.snd)) (start : TrackedCursor σ)
    (x : σ) : ((runFounds ((plan, founds) :: steps) start).output uniqueId).HasData [x] ↔
    ∃ step ∈ (plan, founds) :: steps, ∃ found ∈ step.2,
    foundPasses step.1 found start = true ∧ [x] <+: found.columns := by
  let fresh : TrackedCursor σ :=
    { start with cursor := startPlan plan start.cursor }
  have hindex : fresh.cursor.index = start.cursor.index := by
    simp [fresh, startPlan, if_pos hfirst, Cursor.setOutput_index]
  have hempty : ¬ (fresh.output uniqueId).HasData [x] := by
    rintro ⟨node, hnode, _⟩
    simp only [fresh, TrackedCursor.output, startPlan, if_pos hfirst,
      hplan.output, Cursor.setOutput_output] at hnode
    exact (mem_kill.mp hnode).2 nil_prefix
  have hpasses : ∀ (other : PhysicalPlan) (found : Found σ),
      foundPasses other found fresh = foundPasses other found start := by
    intro other found
    rw [foundPasses, foundPasses, rowPasses, rowPasses, hindex]
  have hrun : runFound plan founds start = founds.foldl (foundRow plan) fresh := by
    simp [runFound, hfirst, fresh]
  have hmem : ∀ step ∈ (plan, founds) :: steps, ∀ found ∈ step.2,
      found ∈ ((plan, founds) :: steps).flatMap Prod.snd :=
    fun step hstep found hfound => mem_flatMap.mpr ⟨step, hstep, hfound⟩
  obtain ⟨hgrown, hdata⟩ := (Grown.refl uniqueId _ fresh).foundRows hrows hplan
    (.inl hfirst) (hmem _ mem_cons_self)
  rw [runFounds, foldl_cons, ← runFounds, hrun, hgrown.runFounds hrows ?_ x, hdata,
    or_iff_right hempty, exists_mem_cons_iff]
  · simp only [hpasses]
  · intro step hstep
    obtain ⟨hstash, hunion⟩ := hsteps step hstep
    exact ⟨hstash, hunion, hmem step (mem_cons_of_mem _ hstep)⟩

section Kills

/-- The index has no nodes but that of `row` and those of row ids below it,
and a row with first column `x` is stored. -/
structure Kept (uniqueId : ℕ) (row : List σ) (x : σ) (cursor : Cursor σ) : Prop where
  index : ∀ node ∈ cursor.index.nodes, node.1 = row ∨ ∃ id, node.1 = row ++ [ofNat id]
  stored : (cursor.output uniqueId).HasData [x]

variable {row : List σ} {x : σ} {cursor : Cursor σ} {plan : PhysicalPlan}

/-- A KILL by row id does not meet a first column that is none. -/
theorem hasData_kill_ofNat {table : Global σ (Value σ)} (hstored : table.HasData [x])
    (hx : ∀ id, x ≠ ofNat id) (id : ℕ) : (table.kill [ofNat id]).HasData [x] := by
  refine hstored.kill ?_ ?_
  · simpa using hx id
  · simpa using (hx id).symm

theorem mem_index_projectRow {node : List σ × Value σ}
    (hnode : node ∈ (projectRow plan row cursor).index.nodes) :
    (node.1 = row ∨ ∃ id, node.1 = row ++ [ofNat id]) ∨ node ∈ cursor.index.nodes := by
  simp only [projectRow] at hnode
  split at hnode
  · rcases mem_set.mp hnode with rfl | ⟨hnode, _⟩
    · exact .inl (.inl rfl)
    · rcases mem_set.mp hnode with rfl | ⟨hnode, _⟩
      · exact .inl (.inr ⟨_, rfl⟩)
      · exact .inr hnode
  · exact .inr hnode

section

variable (hkept : Kept uniqueId row x cursor)
include hkept

theorem Kept.projectRow (hplan : Stashes uniqueId plan) :
    Kept uniqueId row x (projectRow plan row cursor) := by
  refine ⟨?_, (hasData_projectRow hplan _ _ _).mpr (.inr hkept.stored)⟩
  intro node hnode
  exact (mem_index_projectRow hnode).elim id (hkept.index node)

theorem Kept.exceptRow (houtput : plan.outputKey.uniqueId = uniqueId) (hx : ∀ id, x ≠ ofNat id) :
    Kept uniqueId row x (exceptRow plan row cursor) := by
  subst houtput
  unfold Octo.exceptRow
  split
  · exact hkept
  · rename_i v horder
    obtain ⟨node, hnode, hpre⟩ := order_some horder
    obtain ⟨id, rfl⟩ : ∃ id, v = ofNat id := by
      rcases hkept.index node hnode with hpath | ⟨id, hpath⟩
      · rw [hpath] at hpre
        have hle := hpre.length_le
        simp only [length_append, length_singleton] at hle
        omega
      · rw [hpath] at hpre
        have heq := hpre.eq_of_length (by simp)
        exact ⟨id, by simpa using heq⟩
    refine ⟨?_, ?_⟩
    · intro other hother
      exact hkept.index other (mem_kill.mp hother).1
    · simpa using hasData_kill_ofNat hkept.stored hx id

theorem Kept.intersectRow (houtput : plan.outputKey.uniqueId = uniqueId) :
    Kept uniqueId row x (intersectRow plan row cursor) := by
  subst houtput
  refine ⟨?_, ?_⟩
  · intro node hnode
    simp only [Octo.intersectRow] at hnode
    split at hnode
    · exact hkept.index node (mem_kill.mp hnode).1
    · exact hkept.index node hnode
  · simp only [Octo.intersectRow, Function.update_self, increment, hasData_set]
    exact .inr hkept.stored

theorem Kept.outputRow (hplan : Stashes uniqueId plan)
    (hx : ∀ id, x ≠ ofNat id) : Kept uniqueId row x (outputRow plan row cursor) := by
  unfold Octo.outputRow
  split
  · exact hkept.exceptRow hplan.output hx
  · exact hkept.intersectRow hplan.output
  · exact hkept.projectRow hplan
  · exact hkept.projectRow hplan

/-- The walk over the index skips its first node, so it meets row ids only. -/
theorem Kept.lastPiece_walkTwo (hrow : row ≠ []) :
    ∀ path ∈ cursor.index.walkTwo cursor.index.nodes.length [],
    ∃ id, lastPiece path = some (ofNat id) := by
  have hroot : cursor.index.get [] = none := by
    refine get_eq_none.mpr fun node hnode => ?_
    rcases hkept.index node hnode with hpath | ⟨id, hpath⟩ <;> simp [hpath, hrow]
  rw [walkTwo_root _ hroot le_rfl]
  intro path hpath
  have htail := mem_tail_of_mem_everyOther hpath
  have hsorted := pairwise_map.mpr cursor.index.sorted
  have hpaths : ∀ path ∈ cursor.index.nodes.map Prod.fst,
      path = row ∨ ∃ id, path = row ++ [ofNat id] := by
    intro path hpath
    obtain ⟨node, hnode, rfl⟩ := mem_map.mp hpath
    exact hkept.index node hnode
  cases hnodes : cursor.index.nodes.map Prod.fst with
  | nil => simp [hnodes] at htail
  | cons first rest =>
    rw [hnodes] at htail hsorted hpaths
    have hlt := (pairwise_cons.mp hsorted).1 path htail
    have hle : row ≤ first := by
      rcases hpaths first (by simp) with rfl | ⟨id, rfl⟩
      · exact le_rfl
      · exact (lt_snoc row _).le
    rcases hpaths path (mem_cons_of_mem _ htail) with rfl | ⟨id, rfl⟩
    · exact absurd hlt (not_lt.mpr hle)
    · exact ⟨id, lastPiece_ofNat _ _⟩

theorem Kept.deleteRemaining (hrow : row ≠ []) (houtput : plan.outputKey.uniqueId = uniqueId)
    (hx : ∀ id, x ≠ ofNat id) : Kept uniqueId row x (deleteRemaining plan cursor) := by
  have hpaths := hkept.lastPiece_walkTwo hrow
  unfold Octo.deleteRemaining
  generalize cursor.index.walkTwo cursor.index.nodes.length [] = paths at hpaths ⊢
  induction paths generalizing cursor with
  | nil => exact hkept
  | cons path paths ih =>
    obtain ⟨id, hlast⟩ := hpaths path (by simp)
    rw [foldl_cons, hlast]
    refine ih ⟨hkept.index, ?_⟩ (fun other hother => hpaths other (mem_cons_of_mem _ hother))
    subst houtput
    rw [Cursor.setOutput_output]
    exact hasData_kill_ofNat hkept.stored hx id

end

variable {state : TrackedCursor σ}

section

variable (hkept : Kept uniqueId row x state.cursor) (hrow : row ≠ []) (hx : ∀ id, x ≠ ofNat id)
include hkept hrow hx

/-- A stored row stays, whatever is done with copies of it. -/
theorem Kept.runFound (hplan : Stashes uniqueId plan) (hoperation : plan.setOperation ≠ .notSet)
    (hfounds : ∀ found ∈ founds, found.columns = row) :
    Kept uniqueId row x (runFound plan founds state).cursor := by
  have hrows : Kept uniqueId row x (founds.foldl (foundRow plan) state).cursor := by
    induction founds generalizing state with
    | nil => exact hkept
    | cons found founds ih =>
      refine ih ?_ fun other hother =>
        hfounds other (mem_cons_of_mem _ hother)
      unfold foundRow
      split
      · have heq := hfounds found (by simp)
        rw [noteFound, heq]
        exact hkept.outputRow hplan hx
      · exact hkept
  have hstart : startPlan plan state.cursor = state.cursor := by
    rw [startPlan, if_neg hoperation]
  simp only [Octo.runFound, hstart]
  split
  · exact hrows.deleteRemaining hrow hplan.output hx
  · exact hrows

theorem Kept.runFounds (hsteps : ∀ step ∈ steps, Stashes uniqueId step.1 ∧
    step.1.setOperation ≠ .notSet ∧ ∀ found ∈ step.2, found.columns = row) :
    Kept uniqueId row x (runFounds steps state).cursor := by
  induction steps generalizing state with
  | nil => exact hkept
  | cons step steps ih =>
    obtain ⟨hplan, hoperation, hfounds⟩ := hsteps step (by simp)
    exact ih (hkept.runFound hrow hx hplan hoperation hfounds)
      fun other hother => hsteps other (mem_cons_of_mem _ hother)

end

theorem deleteRemaining_index (plan : PhysicalPlan) (cursor : Cursor σ) :
    (deleteRemaining plan cursor).index = cursor.index := by
  unfold deleteRemaining
  induction cursor.index.walkTwo cursor.index.nodes.length [] generalizing cursor with
  | nil => rfl
  | cons path paths ih =>
    rw [foldl_cons, ih]
    split <;> rfl

/-- Plans that find no rows leave the index and the tracker empty. -/
theorem runFounds_of_no_rows (hsteps : ∀ step ∈ steps, step.2 = [])
    (hindex : state.cursor.index = .empty) (hdupl : state.dupl = .empty) :
    (runFounds steps state).cursor.index = .empty ∧ (runFounds steps state).dupl = .empty := by
  induction steps generalizing state with
  | nil => exact ⟨hindex, hdupl⟩
  | cons step steps ih =>
    have hstart : (startPlan step.1 state.cursor).index = .empty := by
      unfold startPlan
      split
      · exact hindex
      · exact hindex
    refine ih (fun other hother => hsteps other (mem_cons_of_mem _ hother)) ?_ ?_
    · simp only [runFound, hsteps step (by simp), foldl_nil]
      split
      · rw [deleteRemaining_index, hstart]
      · exact hstart
    · simp only [runFound, hsteps step (by simp), foldl_nil]
      split <;> exact hdupl

/-- The first row of a chain is stored. -/
theorem kept_runFound_single (hplan : Stashes uniqueId plan)
    (hadds : plan.Adds)
    (hx : found.columns.head? = some x)
    (hindex : state.cursor.index = .empty) (hdupl : state.dupl = .empty) :
    Kept uniqueId found.columns x (runFound plan [found] state).cursor := by
  have hnone : ∀ path : List σ, ¬ (Global.empty : Global σ (Value σ)).HasData path := by
    rintro path ⟨node, hnode, _⟩
    simp at hnode
  have hstart : (startPlan plan state.cursor).index = .empty := by
    unfold startPlan
    split <;> exact hindex
  have hpasses : foundPasses plan found
      { state with cursor := startPlan plan state.cursor } = true := by
    refine foundPasses_eq_true.mpr ⟨(rowPasses_iff hadds).mpr ?_, ?_⟩
    · rw [hstart]
      exact fun _ => hnone _
    · rw [hdupl]
      exact fun _ => hnone _
  have hintersect : plan.setOperation ≠ .intersect := by
    rcases hadds with hoperation | hoperation <;> rw [hoperation] <;> decide
  simp only [runFound, foldl_cons, foldl_nil, foundRow,
    if_pos hpasses, if_neg hintersect, noteFound, outputRow_of_adds hadds]
  refine ⟨?_, ?_⟩
  · intro node hnode
    refine (mem_index_projectRow hnode).resolve_right ?_
    rw [hstart]
    simp
  · refine (hasData_projectRow hplan _ _ _).mpr (.inl ?_)
    cases hcolumns : found.columns with
    | nil => simp [hcolumns] at hx
    | cons first rest =>
      obtain rfl : first = x := by simpa [hcolumns] using hx
      exact ⟨rest, rfl⟩

end Kills

end Octo
