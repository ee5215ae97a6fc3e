/-
Several processes that run one query whose plan has not been written yet.  The
plan file and the metadata of the plan are stored one after the other, under a
lock that a process need not have got.
-/
import Mathlib
import Octo.FileSystem

namespace Octo

open FileSystem List Option

namespace PlanFiles

/-- What is noted down about a column of the output. -/
inductive ColumnField
  | name
  | tableId
  | columnId
  | dataType
  | dataTypeSize
  | typeModifier
  | formatCode
deriving DecidableEq

/-- The order in which they are stored and looked up. -/
def columnFields : List ColumnField :=
  [.name, .tableId, .columnId, .dataType, .dataTypeSize, .typeModifier, .formatCode]

def ColumnField.value (column : String) : ColumnField → String
  | name => column
  | tableId => "0"
  | columnId => "0"
  | dataType => "25"
  | dataTypeSize => "-1"
  | typeModifier => "-1"
  | formatCode => "0"

/-- The nodes of `^%ydboctoocto("plan_metadata",filename)`. -/
inductive MetaNode
  | outputKey
  | outputColumn (number : ℕ) (field : ColumnField)
deriving DecidableEq

def columnNodes (number : ℕ) : List MetaNode :=
  columnFields.map (.outputColumn number)

def metaNodes (count : ℕ) : List MetaNode :=
  .outputKey :: (List.range' 1 count).flatMap columnNodes

/-- What a process that has planned the query brings with it: the bytes of the
plan, call by call as they reach the file, and the unique id of the output key,
which is counted in each process. -/
structure Planner where
  writes : List (List UInt8)
  outputKey : ℕ
  rocto : Bool

/-- The complete output of `emit_physical_plan`. -/
def Planner.output (planner : Planner) : List UInt8 :=
  planner.writes.flatten

structure Query (π : Type) where
  base : List UInt8
  columns : List String
  planner : π → Planner

variable {π : Type}

/-- The name of the plan file ends in `.m`. -/
def Query.filename (query : Query π) : List UInt8 :=
  query.base ++ [46, 109]

/-- The last character becomes a `t`. -/
def tmpPlanFilename (filename : List UInt8) : List UInt8 :=
  filename.dropLast ++ [116]

/-- What `emit_select_statement` stores, in its order. -/
def Query.metadata (query : Query π) (process : π) : List (MetaNode × String) :=
  (.outputKey, toString (query.planner process).outputKey) ::
    (query.columns.zipIdx 1).flatMap fun column =>
      columnFields.map fun field =>
        (.outputColumn column.2 field, field.value column.1)

/-- Where the look-ups of a response stand: `get_plan_row_description` counts the
columns and then reads them, field by field; the output key is looked up last. -/
inductive Lookup
  | counting (last : ℕ)
  | column (last : ℕ)
  | fields (number : ℕ) (rest : List ColumnField)
  | outputKey
deriving DecidableEq

inductive Stage
  | fileTest
  | lockWait
  | secondTest
  | opening
  | writing (inode offset : ℕ) (rest : List (List UInt8))
  | storing (rest : List (MetaNode × String))
  | unlocking
  | executing
  | lookingUp (lookup : Lookup)
  | finished
  | stopped
deriving DecidableEq

/-- The shared state, and where each process is. -/
structure System (π : Type) where
  disk : Disk (List UInt8)
  lock : Option π
  metadata : List (MetaNode × String)
  stage : π → Stage

def subscriptNext (metadata : List (MetaNode × String)) (last : ℕ) : Option ℕ :=
  (metadata.filterMap fun node =>
    match node.1 with
    | .outputKey => none
    | .outputColumn number _ => if last < number then some number else none).min?

/-- A response reads one node or subscript at a time; without a node the process
ends with an error. -/
def Lookup.next (metadata : List (MetaNode × String)) : Lookup → Stage
  | counting last =>
    match subscriptNext metadata last with
    | some number => .lookingUp (counting number)
    | none => .lookingUp (column 0)
  | column last =>
    match subscriptNext metadata last with
    | some number => .lookingUp (fields number columnFields)
    | none => .lookingUp outputKey
  | fields number [] => .lookingUp (column number)
  | fields number (field :: rest) =>
    match metadata.lookup (.outputColumn number field) with
    | some _ => .lookingUp (fields number rest)
    | none => .stopped
  | outputKey =>
    match metadata.lookup .outputKey with
    | some _ => .finished
    | none => .stopped

/-- A process takes its next step, its wait for the lock ends after five
seconds, or it ends: by an error, or because there is no plan for the query. -/
inductive Action
  | advance
  | timeOut
  | stop
deriving DecidableEq

variable [DecidableEq π]

def System.goTo (system : System π) (process : π) (stage : Stage) : System π :=
  { system with stage := Function.update system.stage process stage }

def System.unlock (system : System π) (process : π) : System π :=
  { system with
    lock := if system.lock = some process then none else system.lock }

/-- One step of `run_query` and what it calls. -/
def advance (query : Query π) (system : System π) (process : π) : Option (System π) :=
  let planner := query.planner process
  match system.stage process with
  | .fileTest =>
    if system.disk.read query.filename = none then
      some (system.goTo process .lockWait)
    else some (system.goTo process .executing)
  | .lockWait =>
    if system.lock = none then
      some ({ system with lock := some process }.goTo process .secondTest)
    else none
  | .secondTest =>
    if system.disk.read query.filename = none then
      some (system.goTo process .opening)
    else some (system.goTo process .unlocking)
  | .opening =>
    let (disk, inode) := system.disk.create (tmpPlanFilename query.filename)
    some ({ system with disk := disk }.goTo process (.writing inode 0 planner.writes))
  | .writing inode offset (bytes :: rest) =>
    some ({ system with disk := system.disk.write inode offset bytes }.goTo
      process (.writing inode (offset + bytes.length) rest))
  | .writing _ _ [] =>
    some ({ system with
      disk := system.disk.rename (tmpPlanFilename query.filename)
        query.filename }.goTo process (.storing (query.metadata process)))
  | .storing (node :: rest) =>
    some ({ system with metadata := node :: system.metadata }.goTo process (.storing rest))
  | .storing [] => some (system.goTo process .unlocking)
  | .unlocking => some ((system.unlock process).goTo process .executing)
  | .executing =>
    some (system.goTo process (.lookingUp (if planner.rocto then .counting 0 else .outputKey)))
  | .lookingUp lookup =>
    some (system.goTo process (lookup.next system.metadata))
  | .finished => none
  | .stopped => none

def step (query : Query π) (system : System π) (process : π) : Action → Option (System π)
  | .advance => advance query system process
  | .timeOut =>
    if system.stage process = .lockWait ∧ system.lock ≠ none then
      some (system.goTo process .secondTest)
    else none
  | .stop => some ((system.unlock process).goTo process .stopped)

/-- A run is any interleaving of the steps. -/
def run (query : Query π) (system : System π) : List (π × Action) → Option (System π)
  | [] => some system
  | (process, action) :: rest =>
    (step query system process action).bind fun next => run query next rest

/-- Before the query has been planned. -/
def initial (disk : Disk (List UInt8)) : System π where
  disk := disk
  lock := none
  metadata := []
  stage _ := .fileTest

/-- All metadata of the plan has been stored. -/
def Complete (query : Query π) (system : System π) : Prop :=
  ∀ node ∈ metaNodes query.columns.length, node ∈ system.metadata.map Prod.fst

/-- A process that is about to execute the plan finds the complete output of one
process, and one that looks up metadata finds all of it. -/
structure Safe (query : Query π) (system : System π) : Prop where
  executes : ∀ process, system.stage process = .executing →
    ∃ writer, system.disk.read query.filename = some (query.planner writer).output
  looksUp : ∀ process lookup, system.stage process = .lookingUp lookup → Complete query system

/-- A test does not find a plan without all its metadata, and a process that
has not got the lock does find a plan. -/
def Timely (query : Query π) (system : System π) (process : π) (action : Action) : Prop :=
  action = .advance → ((system.stage process = .fileTest ∨ system.stage process = .secondTest) →
    system.disk.read query.filename ≠ none → Complete query system) ∧
    (system.stage process = .secondTest → system.lock ≠ some process →
    system.disk.read query.filename ≠ none)

def TimelyRun (query : Query π) (system : System π) : List (π × Action) → Prop
  | [] => True
  | (process, action) :: rest =>
    Timely query system process action ∧
      ∀ next ∈ step query system process action, TimelyRun query next rest

instance (query : Query π) (system : System π) : Decidable (Complete query system) :=
  inferInstanceAs (Decidable (∀ node ∈ metaNodes query.columns.length,
    node ∈ system.metadata.map Prod.fst))

instance (query : Query π) (system : System π) (process : π)
    (action : Action) : Decidable (Timely query system process action) := by
  unfold Timely
  infer_instance

instance decidableTimelyRun (query : Query π) : (system : System π) →
    (events : List (π × Action)) → Decidable (TimelyRun query system events)
  | _, [] => isTrue trivial
  | system, (process, action) :: rest =>
    have : ∀ next, Decidable (TimelyRun query next rest) :=
      fun next => decidableTimelyRun query next rest
    inferInstanceAs (Decidable (Timely query system process action ∧
      ∀ next ∈ step query system process action, TimelyRun query next rest))

section Metadata

omit [DecidableEq π]

variable {query : Query π}

theorem map_fst_metadata (process : π) : (query.metadata process).map Prod.fst =
      metaNodes query.columns.length := by
  have hcolumns : ∀ (columns : List String) (first : ℕ),
      ((columns.zipIdx first).flatMap fun column =>
        columnFields.map fun field =>
          (MetaNode.outputColumn column.2 field, field.value column.1)).map
            Prod.fst = (List.range' first columns.length).flatMap
              columnNodes := by
    intro columns
    induction columns with
    | nil => exact fun _ => rfl
    | cons column columns ih =>
      intro first
      rw [zipIdx_cons, flatMap_cons, map_append, ih, length_cons, range'_succ, flatMap_cons]
      rfl
  rw [Query.metadata, map_cons, hcolumns, metaNodes]

theorem nodup_metaNodes (count : ℕ) : (metaNodes count).Nodup := by
  rw [metaNodes, nodup_cons]
  constructor
  · simp [columnNodes]
  · rw [nodup_flatMap]
    constructor
    · intro number _
      exact List.Nodup.map (fun _ _ h => (MetaNode.outputColumn.inj h).2) (by decide)
    · refine List.Pairwise.imp ?_ (nodup_range')
      intro number number' hne node hnode hnode'
      obtain ⟨_, -, rfl⟩ := mem_map.mp hnode
      obtain ⟨_, -, heq⟩ := mem_map.mp hnode'
      exact hne (MetaNode.outputColumn.inj heq).1.symm

/-- The plan of one process is there, with all its metadata. -/
def Published (query : Query π) (system : System π) : Prop :=
  ∃ writer, system.disk.read query.filename = some (query.planner writer).output ∧
    system.metadata.reverse = query.metadata writer

/-- Nothing is there, or the plan of one process with the first part of its
metadata. -/
def Planned (query : Query π) (system : System π) : Prop :=
  (system.disk.read query.filename = none ∧ system.metadata = []) ∨
    ∃ writer rest, system.disk.read query.filename = some (query.planner writer).output ∧
    system.metadata.reverse ++ rest = query.metadata writer

variable {system : System π}

theorem Published.complete (hpublished : Published query system) : Complete query system := by
  obtain ⟨writer, -, hmetadata⟩ := hpublished
  intro node hnode
  rw [← map_fst_metadata writer, ← hmetadata, map_reverse, mem_reverse] at hnode
  exact hnode

theorem Planned.published (hplanned : Planned query system)
    (hread : system.disk.read query.filename ≠ none)
    (hcomplete : Complete query system) : Published query system := by
  obtain ⟨hnone, -⟩ | ⟨writer, rest, hwriter, hmetadata⟩ := hplanned
  · exact absurd hnone hread
  cases rest with
  | nil => exact ⟨writer, hwriter, by rw [← hmetadata, append_nil]⟩
  | cons node rest =>
    -- the next node is one of the plan's and has not been stored
    have hnodes := nodup_metaNodes query.columns.length
    rw [← map_fst_metadata writer, ← hmetadata, map_append, map_reverse, map_cons] at hnodes
    have hmem : node.1 ∈ metaNodes query.columns.length := by
      rw [← map_fst_metadata writer, ← hmetadata]
      simp
    exact absurd (hcomplete _ hmem) (fun hstored => (nodup_append.mp hnodes).2.2 _
      (mem_reverse.mpr hstored) _ mem_cons_self rfl)

theorem Planned.metadata_eq_nil (hplanned : Planned query system)
    (hread : system.disk.read query.filename = none) : system.metadata = [] := by
  obtain ⟨-, hmetadata⟩ | ⟨writer, rest, hwriter, -⟩ := hplanned
  · exact hmetadata
  · rw [hread] at hwriter
    cases hwriter

end Metadata

section Stages

omit [DecidableEq π]

variable {query : Query π} {system next : System π} {process other : π} {stage : Stage}

/-- What is known about the shared state while a process is at a stage. -/
def Fits (query : Query π) (system : System π) (process : π) : Stage → Prop
  | .opening =>
    system.lock = some process ∧ system.disk.read query.filename = none
  | .writing inode offset rest =>
    system.lock = some process ∧ system.disk.read query.filename = none ∧
      system.disk.directory (tmpPlanFilename query.filename) = some inode ∧
      ∃ written, system.disk.contents[inode]? = some written ∧ written.length = offset ∧
      written ++ rest.flatten = (query.planner process).output
  | .storing rest =>
    system.lock = some process ∧ system.disk.read query.filename =
        some (query.planner process).output ∧
      system.metadata.reverse ++ rest = query.metadata process
  | .unlocking => Published query system
  | .executing => Published query system
  | .lookingUp _ => Published query system
  | .finished => Published query system
  | _ => True

/-- The stages at which a process makes the plan file and its metadata. -/
def Stage.writes : Stage → Bool
  | opening | writing _ _ _ | storing _ => true
  | _ => false

theorem Fits.lock_of_writes (hfits : Fits query system process stage)
    (hwrites : stage.writes = true) : system.lock = some process := by
  cases stage <;> simp_all [Stage.writes, Fits]

structure Invariant (query : Query π) (system : System π) : Prop where
  fits : ∀ process, Fits query system process (system.stage process)
  planned : Planned query system

theorem tmpPlanFilename_ne : query.filename ≠ tmpPlanFilename query.filename := by
  intro hname
  have hlast := congrArg List.getLast? hname
  simp [Query.filename, tmpPlanFilename] at hlast

/-- Only the owner of the lock depends on it. -/
theorem Fits.of_lock (hdisk : next.disk = system.disk) (hmetadata : next.metadata = system.metadata)
    (hlock : system.lock = some other → next.lock = some other)
    (hfits : Fits query system other stage) : Fits query next other stage := by
  cases stage with
  | opening => exact ⟨hlock hfits.1, by rw [hdisk]; exact hfits.2⟩
  | writing inode offset rest =>
    exact ⟨hlock hfits.1, by rw [hdisk]; exact hfits.2⟩
  | storing rest =>
    exact ⟨hlock hfits.1, by rw [hdisk, hmetadata]; exact hfits.2⟩
  | fileTest => trivial
  | lockWait => trivial
  | secondTest => trivial
  | stopped => trivial
  | _ =>
    unfold Fits Published at *
    rw [hdisk, hmetadata]
    exact hfits

/-- While one process writes, the others are idle. -/
theorem Fits.of_owner (hlock : system.lock = some process) (hpublished : ¬Published query system)
    (hother : other ≠ process) (hfits : Fits query system other stage) :
    Fits query next other stage := by
  have howner : system.lock ≠ some other := by
    rw [hlock]
    exact fun h => hother (some.inj h).symm
  cases stage with
  | opening => exact absurd hfits.1 howner
  | writing inode offset rest => exact absurd hfits.1 howner
  | storing rest => exact absurd hfits.1 howner
  | fileTest => trivial
  | lockWait => trivial
  | secondTest => trivial
  | stopped => trivial
  | _ => exact absurd hfits hpublished

theorem not_published_of_none (hread : system.disk.read query.filename = none) :
    ¬Published query system := by
  rintro ⟨writer, hwriter, -⟩
  rw [hread] at hwriter
  cases hwriter

theorem not_published_of_rest {node : MetaNode × String} {rest : List (MetaNode × String)}
    (hrest : system.metadata.reverse ++ node :: rest = query.metadata process) :
    ¬Published query system := by
  rintro ⟨writer, -, hmetadata⟩
  have hnodes : (query.metadata process).map Prod.fst = (query.metadata writer).map Prod.fst := by
    rw [map_fst_metadata, map_fst_metadata]
  have hlength := congrArg List.length hnodes
  rw [← hrest, ← hmetadata] at hlength
  simp at hlength

theorem Invariant.safe (hinvariant : Invariant query system) : Safe query system where
  executes process hstage := by
    have hfits := hinvariant.fits process
    rw [hstage] at hfits
    obtain ⟨writer, hread, -⟩ := hfits
    exact ⟨writer, hread⟩
  looksUp process lookup hstage := by
    have hfits := hinvariant.fits process
    rw [hstage] at hfits
    exact Published.complete hfits

end Stages

section Steps

variable {query : Query π} {system next : System π} {process : π} {stage : Stage}

section

variable (hinvariant : Invariant query system)
include hinvariant

theorem Invariant.goTo (hstage : next.stage = system.stage)
    (hothers : ∀ other, other ≠ process → Fits query system other (system.stage other) →
    Fits query next other (system.stage other)) (hfits : Fits query next process stage)
    (hplanned : Planned query next) : Invariant query (next.goTo process stage) := by
  constructor
  · intro other
    by_cases hother : other = process
    · subst hother
      simp only [System.goTo, Function.update_self]
      exact hfits
    · simp only [System.goTo, Function.update_of_ne hother, hstage]
      exact hothers other hother (hinvariant.fits other)
  · exact hplanned

/-- A step that leaves the shared state as it is. -/
theorem Invariant.goTo_self
    (hfits : Fits query system process stage) : Invariant query (system.goTo process stage) :=
  hinvariant.goTo rfl (fun _ _ h => h) hfits hinvariant.planned

theorem Invariant.unlock (hfits : Fits query (system.unlock process) process stage) :
    Invariant query ((system.unlock process).goTo process stage) := by
  refine hinvariant.goTo rfl (fun other hother => ?_) hfits hinvariant.planned
  refine Fits.of_lock rfl rfl fun hlock => ?_
  have hne : system.lock ≠ some process := by
    rw [hlock]
    exact fun h => hother (some.inj h)
  rw [System.unlock, if_neg hne]
  exact hlock

/-- The owner of the lock changes the shared state before all is published. -/
theorem Invariant.goTo_of_owner
    (hstage : next.stage = system.stage) (hlock : system.lock = some process)
    (hpublished : ¬Published query system) (hfits : Fits query next process stage)
    (hplanned : Planned query next) : Invariant query (next.goTo process stage) :=
  hinvariant.goTo hstage (fun _ hother => Fits.of_owner hlock hpublished hother) hfits hplanned

theorem Invariant.create (hstage : system.stage process = .opening) : Invariant query ({ system with
          disk := (system.disk.create (tmpPlanFilename query.filename)).1 }.goTo
        process (.writing (system.disk.create (tmpPlanFilename query.filename)).2 0
          (query.planner process).writes)) := by
  have hfits := hinvariant.fits process
  rw [hstage] at hfits
  obtain ⟨hlock, hread⟩ := hfits
  have hhidden : (system.disk.create (tmpPlanFilename query.filename)).1.read
      query.filename = none := by
    rw [Disk.read_eq_none_iff, Disk.directory_create_of_ne tmpPlanFilename_ne]
    exact Disk.read_eq_none_iff.mp hread
  exact hinvariant.goTo_of_owner rfl hlock (not_published_of_none hread)
    ⟨hlock, hhidden, Disk.directory_create, [], Disk.contents_create, rfl, rfl⟩
    (.inl ⟨hhidden, hinvariant.planned.metadata_eq_nil hread⟩)

end

theorem Invariant.write {inode offset : ℕ} {bytes : List UInt8} {rest : List (List UInt8)}
    (hinvariant : Invariant query system)
    (hstage : system.stage process = .writing inode offset (bytes :: rest)) : Invariant query
    ({ system with disk := system.disk.write inode offset bytes }.goTo
    process (.writing inode (offset + bytes.length) rest)) := by
  have hfits := hinvariant.fits process
  rw [hstage] at hfits
  obtain ⟨hlock, hread, htmp, written, hwritten, rfl, houtput⟩ := hfits
  have hhidden : (system.disk.write inode written.length bytes).read query.filename = none := by
    rw [Disk.read_eq_none_iff] at hread ⊢
    exact hread
  have houtput' : (written ++ bytes) ++ rest.flatten = (query.planner process).output := by
    rw [append_assoc]
    exact houtput
  exact hinvariant.goTo_of_owner rfl hlock (not_published_of_none hread)
    ⟨hlock, hhidden, htmp, written ++ bytes, by simp [Disk.write, hwritten, Disk.overwrite_length],
    length_append, houtput'⟩ (.inl ⟨hhidden, hinvariant.planned.metadata_eq_nil hread⟩)

theorem Invariant.rename {inode offset : ℕ} (hinvariant : Invariant query system)
    (hstage : system.stage process = .writing inode offset []) : Invariant query ({ system with
          disk := system.disk.rename (tmpPlanFilename query.filename) query.filename }.goTo process
        (.storing (query.metadata process))) := by
  have hfits := hinvariant.fits process
  rw [hstage] at hfits
  obtain ⟨hlock, hread, htmp, written, hwritten, -, houtput⟩ := hfits
  have hmetadata := hinvariant.planned.metadata_eq_nil hread
  have hplan : (system.disk.rename (tmpPlanFilename query.filename)
      query.filename).read query.filename = some (query.planner process).output := by
    simp [Disk.read, Disk.rename, htmp, hwritten, ← houtput]
  have hstored : system.metadata.reverse ++ query.metadata process = query.metadata process := by
    rw [hmetadata]
    rfl
  exact hinvariant.goTo_of_owner rfl hlock (not_published_of_none hread)
    ⟨hlock, hplan, hstored⟩ (.inr ⟨process, _, hplan, hstored⟩)

theorem Invariant.store {node : MetaNode × String} {rest : List (MetaNode × String)}
    (hinvariant : Invariant query system)
    (hstage : system.stage process = .storing (node :: rest)) : Invariant query
    ({ system with metadata := node :: system.metadata }.goTo process (.storing rest)) := by
  have hfits := hinvariant.fits process
  rw [hstage] at hfits
  obtain ⟨hlock, hread, hmetadata⟩ := hfits
  have hstored : (node :: system.metadata).reverse ++ rest = query.metadata process := by
    rw [reverse_cons, append_assoc]
    exact hmetadata
  exact hinvariant.goTo_of_owner rfl hlock (not_published_of_rest hmetadata)
    ⟨hlock, hread, hstored⟩ (.inr ⟨process, rest, hread, hstored⟩)

theorem Invariant.advance (hinvariant : Invariant query system)
    (htimely : Timely query system process .advance)
    (hnext : PlanFiles.advance query system process = some next) : Invariant query next := by
  have hfits := hinvariant.fits process
  have hpublished := hinvariant.planned.published
  obtain ⟨hcomplete, howner⟩ := htimely rfl
  unfold PlanFiles.advance at hnext
  cases hstage : system.stage process with
      try simp only [hstage] at hnext
  | fileTest =>
    split_ifs at hnext with hread <;> cases hnext
    · exact hinvariant.goTo_self trivial
    · exact hinvariant.goTo_self (hpublished hread (hcomplete (.inl hstage) hread))
  | lockWait =>
    split_ifs at hnext with hlock
    cases hnext
    refine hinvariant.goTo rfl (fun other _ => ?_) trivial hinvariant.planned
    refine Fits.of_lock rfl rfl fun hother => ?_
    rw [hlock] at hother
    cases hother
  | secondTest =>
    split_ifs at hnext with hread <;> cases hnext
    · have hlock : system.lock = some process :=
        not_not.mp fun hlock => howner hstage hlock hread
      exact hinvariant.goTo_self ⟨hlock, hread⟩
    · exact hinvariant.goTo_self (hpublished hread (hcomplete (.inr hstage) hread))
  | opening =>
    simp only [some.injEq] at hnext
    exact hnext ▸ hinvariant.create hstage
  | writing inode offset rest =>
    cases rest with
    | nil =>
      simp only [some.injEq] at hnext
      exact hnext ▸ hinvariant.rename hstage
    | cons bytes rest =>
      simp only [some.injEq] at hnext
      exact hnext ▸ hinvariant.write hstage
  | storing rest =>
    cases rest with
    | nil =>
      simp only [some.injEq] at hnext
      rw [hstage] at hfits
      obtain ⟨-, hread, hmetadata⟩ := hfits
      rw [append_nil] at hmetadata
      exact hnext ▸ hinvariant.goTo_self ⟨process, hread, hmetadata⟩
    | cons node rest =>
      simp only [some.injEq] at hnext
      exact hnext ▸ hinvariant.store hstage
  | unlocking =>
    simp only [some.injEq] at hnext
    rw [hstage] at hfits
    exact hnext ▸ hinvariant.unlock hfits
  | executing =>
    simp only [some.injEq] at hnext
    rw [hstage] at hfits
    exact hnext ▸ hinvariant.goTo_self hfits
  | lookingUp lookup =>
    simp only [some.injEq] at hnext
    rw [hstage] at hfits
    refine hnext ▸ hinvariant.goTo_self ?_
    fun_cases Lookup.next
    all_goals first | exact hfits | trivial
  | finished =>
    cases hnext
  | stopped =>
    cases hnext

theorem Invariant.step {action : Action} (hinvariant : Invariant query system)
    (htimely : Timely query system process action)
    (hnext : PlanFiles.step query system process action = some next) : Invariant query next := by
  cases action with
  | advance => exact hinvariant.advance htimely hnext
  | timeOut =>
    unfold PlanFiles.step at hnext
    split_ifs at hnext
    cases hnext
    exact hinvariant.goTo_self trivial
  | stop =>
    cases hnext
    exact hinvariant.unlock trivial

theorem Invariant.run {events : List (π × Action)} (hinvariant : Invariant query system)
    (htimely : TimelyRun query system events)
    (hrun : PlanFiles.run query system events = some next) : Invariant query next := by
  induction events generalizing system with
  | nil => exact some.inj hrun ▸ hinvariant
  | cons event events ih =>
    obtain ⟨middle, hstep, hrest⟩ := bind_eq_some_iff.mp hrun
    exact ih (hinvariant.step htimely.1 hstep) (htimely.2 middle hstep) hrest

/-- The stages of a process that has taken the lock and not yet given it back. -/
def Stage.ownsLock : Stage → Bool
  | secondTest | opening | writing _ _ _ | storing _ | unlocking => true
  | _ => false

/-- What a step does to the lock. -/
theorem step_lock {action : Action} (hnext : step query system process action = some next) :
    ∃ stage, next.stage = Function.update system.stage process stage ∧
    (next.lock = system.lock ∧ ((system.stage process).ownsLock = true → stage.ownsLock = true) ∨
    next.lock = some process ∧ stage.ownsLock = true ∨
    next.lock = if system.lock = some process then none else system.lock) := by
  cases action with
  | advance =>
    rw [step] at hnext
    revert hnext
    fun_cases advance query system process <;> rintro ⟨⟩ <;> refine ⟨_, rfl, ?_⟩ <;>
      simp_all [System.goTo, System.unlock, Stage.ownsLock]
  | timeOut =>
    simp only [step] at hnext
    split_ifs at hnext
    cases hnext
    exact ⟨_, rfl, .inl ⟨rfl, fun _ => rfl⟩⟩
  | stop =>
    cases hnext
    exact ⟨_, rfl, .inr (.inr rfl)⟩

/-- The owner of the lock, if there is one, is on its way to give it back. -/
def OwnerGoesOn (system : System π) : Prop :=
  ∀ owner, system.lock = some owner → (system.stage owner).ownsLock = true

theorem OwnerGoesOn.step {action : Action} (howner : OwnerGoesOn system)
    (hnext : PlanFiles.step query system process action = some next) : OwnerGoesOn next := by
  intro owner hlock
  obtain ⟨stage, hstage, hchange⟩ := step_lock hnext
  rw [hstage]
  by_cases howns : owner = process
  · subst howns
    rw [Function.update_self]
    grind [OwnerGoesOn]
  · rw [Function.update_of_ne howns]
    grind [OwnerGoesOn]

theorem OwnerGoesOn.run {events : List (π × Action)} (howner : OwnerGoesOn system)
    (hrun : PlanFiles.run query system events = some next) : OwnerGoesOn next := by
  induction events generalizing system with
  | nil => exact some.inj hrun ▸ howner
  | cons event events ih =>
    obtain ⟨middle, hstep, hrest⟩ := bind_eq_some_iff.mp hrun
    exact ih (howner.step hstep) hrest

/-- The number of steps to the release of the lock. -/
def Stage.left (query : Query π) (process : π) : Stage → ℕ
  | secondTest => (query.planner process).writes.length + (query.metadata process).length + 4
  | opening => (query.planner process).writes.length + (query.metadata process).length + 3
  | writing _ _ rest => rest.length + (query.metadata process).length + 2
  | storing rest => rest.length + 1
  | _ => 0

theorem exists_advance_of_ownsLock (query : Query π)
    (howns : (system.stage process).ownsLock = true) :
    system.stage process = .unlocking ∨ ∃ later, advance query system process = some later ∧
      later.lock = system.lock ∧ (later.stage process).ownsLock = true ∧
      (later.stage process).left query process < (system.stage process).left query process := by
  fun_cases advance query system process <;>
    simp_all [System.goTo, Stage.ownsLock, Stage.left]
  exact le_rfl

/-- The owner of the lock gives it back by steps of its own. -/
theorem exists_release (query : Query π) (hlock : system.lock = some process)
    (howns : (system.stage process).ownsLock = true) : ∃ n next, next.lock = none ∧
      (∀ other ≠ process, next.stage other = system.stage other) ∧ ∀ rest,
      PlanFiles.run query system (List.replicate n (process, .advance) ++ rest) =
        PlanFiles.run query next rest := by
  induction hleft : (system.stage process).left query process using Nat.strongRecOn
    generalizing system with
  | ind left ih =>
    rcases exists_advance_of_ownsLock query howns with
      hstage | ⟨later, hstep, hsame, hlater, hless⟩
    · refine ⟨1, (system.unlock process).goTo process .executing, ?_, ?_, ?_⟩
      · simp [System.unlock, System.goTo, hlock]
      · exact fun other hother => Function.update_of_ne hother ..
      · simp [PlanFiles.run, step, advance, hstage]
    · obtain ⟨n, next, hnone, hothers, hrun⟩ :=
        ih _ (hleft ▸ hless) (hsame.trans hlock) hlater rfl
      obtain ⟨stage, hstages, -⟩ :=
        step_lock (show step query system process .advance = _ from hstep)
      refine ⟨n + 1, next, hnone, fun other hother => ?_, fun rest => ?_⟩
      · rw [hothers other hother, hstages, Function.update_of_ne hother]
      · rw [List.replicate_succ, List.cons_append, PlanFiles.run, step, hstep]
        exact hrun rest

theorem advance_eq_none (hnone : advance query system process = none) :
    system.stage process = .finished ∨ system.stage process = .stopped ∨
    system.stage process = .lockWait ∧ system.lock ≠ none := by
  revert hnone
  fun_cases advance query system process <;> simp_all

end Steps

end PlanFiles

open PlanFiles

/-- Whatever the processes have done so far, one that has not ended can take its
next step, at most after steps of the process that owns the lock. -/
theorem processes_can_go_on {π : Type} [DecidableEq π] (query : Query π)
    (disk : Disk (List UInt8)) (events : List (π × Action)) (system : System π)
    (hrun : run query (initial disk) events = some system) (process : π) :
    system.stage process = .finished ∨ system.stage process = .stopped ∨
    ∃ owner n next, (n = 0 ∨ system.lock = some owner) ∧ run query system
      (List.replicate n (owner, .advance) ++ [(process, .advance)]) = some next := by
  have howner : OwnerGoesOn system :=
    OwnerGoesOn.run (show OwnerGoesOn (initial disk) from nofun) hrun
  cases hadvance : advance query system process with
  | some next => exact .inr (.inr ⟨process, 0, next, .inl rfl, by simp [run, step, hadvance]⟩)
  | none =>
    rcases advance_eq_none hadvance with hstage | hstage | ⟨hstage, hlock⟩
    · exact .inl hstage
    · exact .inr (.inl hstage)
    · obtain ⟨owner, hlock⟩ := ne_none_iff_exists'.mp hlock
      obtain ⟨n, later, hfree, hothers, hlater⟩ := exists_release query hlock (howner owner hlock)
      have hne : process ≠ owner := by
        rintro rfl
        have howns := howner process hlock
        simp [hstage, Stage.ownsLock] at howns
      have hwaits : later.stage process = .lockWait := (hothers process hne).trans hstage
      refine .inr (.inr ⟨owner, n, { later with lock := some process }.goTo process .secondTest,
        .inr hlock, ?_⟩)
      simp [hlater, run, step, advance, hwaits, hfree]

theorem waiting_process_can_go_on : ∃ (query : Query Bool) (disk : Disk (List UInt8))
    (system : System Bool), run query (initial disk)
      [(false, .advance), (false, .advance), (true, .advance)] = some system ∧
    system.stage true = .lockWait ∧ system.lock = some false ∧
    ∃ owner n next, (n = 0 ∨ system.lock = some owner) ∧ run query system
      (List.replicate n (owner, .advance) ++ [(true, .advance)]) = some next := by
  let disk : Disk (List UInt8) := ⟨fun _ => none, [], by simp⟩
  exact ⟨⟨[112], ["id"], fun _ => ⟨[[65], [66]], 1, true⟩⟩, disk, _, rfl, rfl, rfl,
    ((processes_can_go_on _ disk [(false, .advance), (false, .advance), (true, .advance)] _ rfl
      true).resolve_left (by decide)).resolve_left (by decide)⟩

/-- In a run whose tests never find a plan without its metadata and in which no
process goes on to write without the lock, no process executes an incomplete
plan or looks up incomplete metadata. -/
theorem plan_files_safe_of_timely {π : Type} [DecidableEq π] (query : Query π)
    (disk : Disk (List UInt8)) (hdisk : disk.read query.filename = none)
    (events : List (π × Action)) (system : System π)
    (hrun : run query (initial disk) events = some system)
    (htimely : TimelyRun query (initial disk) events) : Safe query system :=
  (Invariant.run (show Invariant query (initial disk) from ⟨fun _ => trivial, .inl ⟨hdisk, rfl⟩⟩)
    htimely hrun).safe

/-- Of two processes the second one waits for the lock while the first one
writes the plan, and then finds the plan and its metadata. -/
theorem plan_files_safe_of_timely_two : ∃ (query : Query Bool) (disk : Disk (List UInt8))
    (system : System Bool),
    run query (initial disk) ([(false, .advance), (false, .advance), (true, .advance)] ++
      List.replicate 15 (false, .advance) ++ List.replicate 4 (true, .advance)) = some system ∧
    system.stage false = .executing ∧ system.stage true = .lookingUp (.counting 0) ∧
    Safe query system := by
  let query : Query Bool := ⟨[112], ["id"], fun process => ⟨[[65], [66]], process.toNat, true⟩⟩
  let disk : Disk (List UInt8) := ⟨fun _ => none, [], by simp⟩
  exact ⟨query, disk, _, rfl, rfl, rfl,
    plan_files_safe_of_timely query disk rfl ([(false, .advance), (false, .advance),
      (true, .advance)] ++ List.replicate 15 (false, .advance) ++
      List.replicate 4 (true, .advance)) _ rfl (by decide)⟩

/-- In such a run at most one process writes at a time, and the plan that a
process executes has the metadata of the process that wrote it: its unique id of
the output key is the one the plan stores its rows under. -/
theorem one_writer_of_timely {π : Type} [DecidableEq π] (query : Query π)
    (disk : Disk (List UInt8)) (hdisk : disk.read query.filename = none)
    (events : List (π × Action)) (system : System π)
    (hrun : run query (initial disk) events = some system)
    (htimely : TimelyRun query (initial disk) events) :
    (∀ first second, (system.stage first).writes = true → (system.stage second).writes = true →
      first = second) ∧
    ∀ process, system.stage process = .executing ∨ system.stage process = .finished →
      Published query system := by
  have hinvariant : Invariant query system :=
    Invariant.run (show Invariant query (initial disk) from
      ⟨fun _ => trivial, .inl ⟨hdisk, rfl⟩⟩) htimely hrun
  refine ⟨fun first second hfirst hsecond => ?_, fun process hstage => ?_⟩
  · have hlock := (hinvariant.fits first).lock_of_writes hfirst
    rw [(hinvariant.fits second).lock_of_writes hsecond] at hlock
    exact (some.inj hlock).symm
  · have hfits := hinvariant.fits process
    rcases hstage with hstage | hstage <;> rwa [hstage] at hfits

/-- While the first process writes the second one waits; when it gets on, it
executes the plan of the first one. -/
theorem one_writer_of_timely_two : ∃ (query : Query Bool) (disk : Disk (List UInt8))
    (middle system : System Bool),
    run query (initial disk) ([(false, .advance), (false, .advance), (true, .advance)] ++
      List.replicate 4 (false, .advance)) = some middle ∧
    middle.stage true = .lockWait ∧ (middle.stage false).writes = true ∧
    (∀ process, (middle.stage process).writes = true → process = false) ∧
    run query (initial disk) ([(false, .advance), (false, .advance), (true, .advance)] ++
      List.replicate 15 (false, .advance) ++ List.replicate 3 (true, .advance)) = some system ∧
    system.stage true = .executing ∧ Published query system := by
  let query : Query Bool := ⟨[112], ["id"], fun process => ⟨[[65], [66]], process.toNat, true⟩⟩
  let disk : Disk (List UInt8) := ⟨fun _ => none, [], by simp⟩
  refine ⟨query, disk, _, _, rfl, rfl, rfl, fun process hwrites => ?_, rfl, rfl, ?_⟩
  · exact (one_writer_of_timely query disk rfl ([(false, .advance), (false, .advance),
      (true, .advance)] ++ List.replicate 4 (false, .advance)) _ rfl (by decide)).1
      process false hwrites rfl
  · exact (one_writer_of_timely query disk rfl ([(false, .advance), (false, .advance),
      (true, .advance)] ++ List.replicate 15 (false, .advance) ++
      List.replicate 3 (true, .advance)) _ rfl (by decide)).2 true (.inl rfl)

/-- With two processes: a test between the renaming and the metadata lets a
process look for metadata that is not there, and a process whose wait ends cuts
the file that the other one has just written and is about to execute. -/
theorem early_test_and_timeout_are_unsafe : ∃ (query : Query Bool) (disk : Disk (List UInt8)),
    disk.read query.filename = none ∧
    (∃ events system, run query (initial disk) events = some system ∧
    system.stage true = .lookingUp (.counting 0) ∧ ¬Complete query system) ∧
    ∃ events system, run query (initial disk) events = some system ∧
    system.stage false = .executing ∧ ∀ writer, system.disk.read query.filename ≠
    some (query.planner writer).output := by
  refine ⟨⟨[112], ["id"], fun _ => ⟨[[65], [66]], 1, true⟩⟩,
    ⟨fun _ => none, [], by simp⟩, rfl, ?_, ?_⟩
  · refine ⟨List.replicate 7 (false, .advance) ++
      List.replicate 2 (true, .advance), _, rfl, rfl, ?_⟩
    decide
  · refine ⟨List.replicate 6 (false, .advance) ++
      [(true, .advance), (true, .timeOut), (true, .advance), (true, .advance)] ++
      List.replicate 11 (false, .advance), _, rfl, rfl, ?_⟩
    decide

end Octo
