/-
Table definitions over the life of a process.  `find_table` keeps what it
loaded and looks there first; DROP TABLE removes a definition and what was
loaded of it, CREATE TABLE does not look at what was loaded.
-/
import Octo.SchemaChunks

namespace Octo

open GlobalTree TableStatement Option

def stripSchema : TableName → Option TableName
  | [] => none
  | c :: name => if c = '.' then some name else stripSchema name

/-- `find_table`, which calls itself for the name without its schema. -/
def findTableFrom : ℕ → TableName → Process → Option (Option (List UInt8) × Process)
  | 0, _, _ => none
  | fuel + 1, name, p =>
    match p.loaded.get [nameSub name] with
    | some buffer => some (some buffer, p)
    | none => do
      match ← loadTable p.schema name with
      | some buffer =>
        some (some buffer,
          { p with loaded := p.loaded.set [nameSub name] buffer })
      | none =>
        match stripSchema name with
        | some rest => findTableFrom fuel rest p
        | none => some (none, p)

def findTable (name : TableName) (p : Process) : Option (Option (List UInt8) × Process) :=
  findTableFrom (name.length + 1) name p

/-- The names that `find_table` tries after the name itself. -/
def strippedNames : TableName → List TableName
  | [] => []
  | c :: name =>
    if c = '.' then name :: strippedNames name else strippedNames name

/-- What matters of a process: the definitions, and which were loaded. -/
structure Catalog where
  defs : TableName → Option Table
  cached : TableName → Option Table

namespace Catalog

def empty : Catalog := ⟨fun _ => none, fun _ => none⟩

def create (name : TableName) (t : Table) (c : Catalog) : Catalog :=
  { c with defs := Function.update c.defs name (some t) }

def drop (name : TableName) (c : Catalog) : Catalog :=
  ⟨Function.update c.defs name none, Function.update c.cached name none⟩

/-- What is loaded comes before what is defined. -/
def lookup (c : Catalog) (name : TableName) : Option Table :=
  (c.cached name).or (c.defs name)

def find (c : Catalog) : List TableName → Option Table × Catalog
  | [] => (none, c)
  | name :: rest =>
    match c.lookup name with
    | some t =>
      (some t, { c with cached := Function.update c.cached name (some t) })
    | none => find c rest

end Catalog

/-- The process has the definitions of the catalog. -/
structure Agrees (p : Process) (c : Catalog) : Prop where
  defined : ∀ name t, c.defs name = some t → ∃ count bytes,
    Chunked p.schema name count ∧ IsPacked bytes t ∧ ChunksOf p.schema name bytes
  undefined : ∀ name, c.defs name = none → Chunked p.schema name 0
  loaded : ∀ name t, c.cached name = some t → ∃ buffer,
    p.loaded.get [nameSub name] = some buffer ∧ Holds buffer t ∧ buffer.length < 2 ^ 64
  unloaded : ∀ name, c.cached name = none → p.loaded.get [nameSub name] = none

/-- A found buffer holds the table. -/
def Returns : Option (List UInt8) → Option Table → Prop
  | none, none => True
  | some buffer, some t => Holds buffer t ∧ buffer.length < 2 ^ 64
  | _, _ => False

theorem Returns.iff_eq {result : Option (List UInt8)} {found : Option Table}
    (hreturns : Returns result found) (expected : Option Table) :
    Returns result expected ↔ found = expected := by
  cases result with
  | none =>
    cases found with
    | none => cases expected <;> simp [Returns]
    | some t => exact hreturns.elim
  | some buffer =>
    cases found with
    | none => exact hreturns.elim
    | some t =>
      cases expected with
      | none => simp [Returns]
      | some u =>
        constructor
        · intro hexpected
          rw [Holds.unique hreturns.2 hreturns.1 hexpected.1]
        · rintro ⟨⟩
          exact hreturns

section Simulation

variable {p : Process} {c : Catalog} {name : TableName}

theorem Agrees.exists_chunked (hagrees : Agrees p c) (name : TableName) :
    ∃ count, Chunked p.schema name count := by
  cases hdefs : c.defs name with
  | none => exact ⟨0, hagrees.undefined name hdefs⟩
  | some t =>
    obtain ⟨count, _, hchunked, _⟩ := hagrees.defined name t hdefs
    exact ⟨count, hchunked⟩

variable {t : Table}

theorem Agrees.create (hagrees : Agrees p c) {text bytes : List UInt8} (hpacked : IsPacked bytes t)
    (hshort : bytes.length < 2 ^ 31) :
    Agrees (createTable name text bytes p) (c.create name t) := by
  refine ⟨?_, ?_, hagrees.loaded, hagrees.unloaded⟩
  · intro other u hu
    by_cases hother : other = name
    · subst hother
      have htable : t = u := by simpa [Catalog.create] using hu
      subst htable
      obtain ⟨count, hchunked⟩ := hagrees.exists_chunked other
      obtain ⟨hnew, hbytes⟩ := hchunked.createTable hshort
      exact ⟨_, bytes, hnew, hpacked, hbytes⟩
    · have hold : c.defs other = some u := by
        simpa [Catalog.create, hother] using hu
      obtain ⟨count, old, hchunked, hpackedOld, hbytes⟩ :=
        hagrees.defined other u hold
      exact ⟨count, old, hchunked.congr fun path hpath => createTable_other hother hpath,
        hpackedOld, hbytes.congr fun path hpath =>
          createTable_other hother hpath⟩
  · intro other hnone
    by_cases hother : other = name
    · simp [Catalog.create, hother] at hnone
    · have hold : c.defs other = none := by
        simpa [Catalog.create, hother] using hnone
      exact (hagrees.undefined other hold).congr fun path hpath =>
        createTable_other hother hpath

theorem get_dropTable (other : TableName) : (dropTable name p).loaded.get [nameSub other] =
      if other = name then none else p.loaded.get [nameSub other] := by
  have hkill : (p.loaded.kill [nameSub name]).get [nameSub other] =
      if other = name then none else p.loaded.get [nameSub other] := by
    rw [Global.get_kill]
    by_cases hother : other = name
    · simp [hother]
    · rw [if_neg hother, if_neg]
      rintro ⟨tail, htail⟩
      have hsame : name = other := by
        simpa [nameSub] using congrArg List.head? htail
      exact hother hsame.symm
  unfold dropTable
  by_cases hloaded : (p.loaded.get [nameSub name]).isSome
  · simp only [hloaded, if_true]
    exact hkill
  · simp only [hloaded]
    by_cases hother : other = name
    · rw [if_pos hother, hother]
      simpa using hloaded
    · simp [hother]

theorem Agrees.drop (hagrees : Agrees p c) : Agrees (dropTable name p) (c.drop name) := by
  refine ⟨?_, ?_, ?_, ?_⟩
  · intro other t ht
    by_cases hother : other = name
    · simp [Catalog.drop, hother] at ht
    · have hold : c.defs other = some t := by
        simpa [Catalog.drop, hother] using ht
      obtain ⟨count, bytes, hchunked, hpacked, hbytes⟩ :=
        hagrees.defined other t hold
      exact ⟨count, bytes, hchunked.congr fun path hpath => dropTable_other hother hpath,
        hpacked, hbytes.congr fun path hpath =>
          dropTable_other hother hpath⟩
  · intro other hnone
    by_cases hother : other = name
    · rw [hother]
      exact dropTable_chunked
    · have hold : c.defs other = none := by
        simpa [Catalog.drop, hother] using hnone
      exact (hagrees.undefined other hold).congr fun path hpath =>
        dropTable_other hother hpath
  · intro other t ht
    by_cases hother : other = name
    · simp [Catalog.drop, hother] at ht
    · have hold : c.cached other = some t := by
        simpa [Catalog.drop, hother] using ht
      rw [get_dropTable, if_neg hother]
      exact hagrees.loaded other t hold
  · intro other hnone
    rw [get_dropTable]
    by_cases hother : other = name
    · rw [if_pos hother]
    · have hold : c.cached other = none := by
        simpa [Catalog.drop, hother] using hnone
      rw [if_neg hother]
      exact hagrees.unloaded other hold

theorem strippedNames_eq (name : TableName) : strippedNames name =
      match stripSchema name with
      | some rest => rest :: strippedNames rest
      | none => [] := by
  induction name with
  | nil => rfl
  | cons c name ih =>
    by_cases hdot : c = '.'
    · simp [strippedNames, stripSchema, hdot]
    · simp [strippedNames, stripSchema, hdot, ih]

theorem length_stripSchema {rest : TableName}
    (hrest : stripSchema name = some rest) : rest.length < name.length := by
  induction name with
  | nil => simp [stripSchema] at hrest
  | cons c name ih =>
    by_cases hdot : c = '.'
    · have heq : name = rest := by simpa [stripSchema, hdot] using hrest
      simp [heq]
    · have := ih (by simpa [stripSchema, hdot] using hrest)
      rw [List.length_cons]
      omega

/-- What was just loaded is what was found. -/
theorem Agrees.load (hagrees : Agrees p c) {buffer : List UInt8}
    (hholds : Holds buffer t) (hshort : buffer.length < 2 ^ 64) :
    Agrees { p with loaded := p.loaded.set [nameSub name] buffer }
      { c with cached := Function.update c.cached name (some t) } := by
  have hget : ∀ other, (p.loaded.set [nameSub name] buffer).get
      [nameSub other] = if other = name then some buffer
        else p.loaded.get [nameSub other] := by
    intro other
    by_cases hother : other = name
    · rw [if_pos hother, hother, Global.get_set_self]
    · rw [if_neg hother, Global.get_set_ne]
      simpa [nameSub] using hother
  refine ⟨hagrees.defined, hagrees.undefined, ?_, ?_⟩
  · intro other u hu
    rw [hget]
    by_cases hother : other = name
    · have htable : t = u := by simpa [hother] using hu
      rw [if_pos hother, ← htable]
      exact ⟨buffer, rfl, hholds, hshort⟩
    · have hold : c.cached other = some u := by simpa [hother] using hu
      rw [if_neg hother]
      exact hagrees.loaded other u hold
  · intro other hnone
    rw [hget]
    by_cases hother : other = name
    · simp [hother] at hnone
    · have hold : c.cached other = none := by simpa [hother] using hnone
      rw [if_neg hother]
      exact hagrees.unloaded other hold

/-- The chunks of a definition are loaded as a buffer that holds it. -/
theorem Agrees.loadTable_defined (hagrees : Agrees p c) (hdefs : c.defs name = some t) :
    ∃ buffer, loadTable p.schema name = some (some buffer) ∧
    Holds buffer t ∧ buffer.length < 2 ^ 64 := by
  obtain ⟨count, bytes, hchunked, hpacked, hbytes⟩ :=
    hagrees.defined name t hdefs
  have hcount : count ≠ 0 := by
    rintro rfl
    have hpos : 0 * maxStrConst < bytes.length := by
      rw [Nat.zero_mul, hpacked.length]
      exact t.size_pos
    obtain ⟨i, hi, _⟩ := hchunked.only (chunkPath name 0)
      ⟨[numberSub 0], rfl⟩ (by rw [hbytes 0 hpos]; rfl)
    exact absurd hi (Nat.not_lt_zero i)
  refine ⟨assembled p.schema name count, ?_, ?_, ?_⟩
  · rw [hchunked.loadTable_eq, if_neg hcount]
  · exact hpacked.holds (hchunked.assembled_starts hbytes)
  · have hshort := hchunked.short
    rw [hchunked.length_assembled]
    simp only [maxStrConst] at hshort ⊢
    omega

theorem Agrees.findFrom (hagrees : Agrees p c) {fuel : ℕ} (hfuel : name.length < fuel) :
    ∃ result later, findTableFrom fuel name p = some (result, later) ∧
    Returns result (c.find (name :: strippedNames name)).1 ∧
    Agrees later (c.find (name :: strippedNames name)).2 := by
  induction fuel generalizing name with
  | zero => exact absurd hfuel (Nat.not_lt_zero _)
  | succ fuel ih =>
    rw [findTableFrom, Catalog.find, Catalog.lookup]
    cases hcached : c.cached name with
    | some t =>
      obtain ⟨buffer, hbuffer, hholds, hshort⟩ :=
        hagrees.loaded name t hcached
      have hsame : Function.update c.cached name (some t) = c.cached := by
        rw [← hcached, Function.update_eq_self]
      refine ⟨some buffer, p, by simp [hbuffer], ⟨hholds, hshort⟩, ?_⟩
      simp only [some_or, hsame]
      exact hagrees
    | none =>
      rw [hagrees.unloaded name hcached]
      cases hdefs : c.defs name with
      | some t =>
        obtain ⟨buffer, hload, hholds, hshort⟩ :=
          hagrees.loadTable_defined hdefs
        refine ⟨some buffer, _, ?_, ⟨hholds, hshort⟩, hagrees.load hholds hshort⟩
        simp [hload]
      | none =>
        have hload : loadTable p.schema name = some none :=
          (hagrees.undefined name hdefs).loadTable_eq
        simp only [hload, bind_eq_bind, bind_some, none_or]
        rw [strippedNames_eq]
        cases hstrip : stripSchema name with
        | none => exact ⟨none, p, rfl, trivial, hagrees⟩
        | some rest =>
          have hlength := length_stripSchema hstrip
          exact ih (by omega)

end Simulation

/-- A definition as `run_query` stores it; its length is an int. -/
structure Definition where
  text : List UInt8
  bytes : List UInt8
  table : Table
  packed : IsPacked bytes table
  short : bytes.length < 2 ^ 31

def Definition.name (d : Definition) : TableName :=
  d.table.name.text.map fun byte => Char.ofNat byte.toNat

inductive Event where
  | create (d : Definition)
  | drop (name : TableName)
  | find (name : TableName)

def Event.run : Event → Process → Option Process
  | .create d, p => some (createTable d.name d.text d.bytes p)
  | .drop name, p => some (dropTable name p)
  | .find name, p => (findTable name p).map Prod.snd

def Event.record : Event → Catalog → Catalog
  | .create d, c => c.create d.name d.table
  | .drop name, c => c.drop name
  | .find name, c => (c.find (name :: strippedNames name)).2

def runEvents (events : List Event) (p : Process) : Option Process :=
  events.foldlM (fun p event => event.run p) p

def catalogAfter (events : List Event) : Catalog :=
  events.foldl (fun c event => event.record c) .empty

/-- The table of the last CREATE TABLE, unless it was dropped since. -/
def lastDefinition (name : TableName) (events : List Event) : Option Table :=
  events.foldl (fun found event =>
    match event with
    | .create d => if d.name = name then some d.table else found
    | .drop other => if other = name then none else found
    | .find _ => found) none

/-- Nothing else than the present definition was loaded under the name, and no
table is known by the name without its schema if there is none by the name. -/
def Catalog.Fresh (c : Catalog) (name : TableName) : Prop :=
  (c.cached name = none ∨ c.cached name = c.defs name) ∧
    (c.cached name = none → c.defs name = none →
      ∀ rest ∈ strippedNames name, c.cached rest = none ∧ c.defs rest = none)

section Runs

variable {p : Process} {c : Catalog}

theorem Agrees.step (hagrees : Agrees p c) (event : Event) :
    ∃ later, event.run p = some later ∧ Agrees later (event.record c) := by
  cases event with
  | create d => exact ⟨_, rfl, hagrees.create d.packed d.short⟩
  | drop name => exact ⟨_, rfl, hagrees.drop⟩
  | find name =>
    obtain ⟨result, later, hfind, _, hlater⟩ :=
      hagrees.findFrom (Nat.lt_succ_self name.length)
    refine ⟨later, ?_, hlater⟩
    rw [Event.run, findTable, hfind]
    rfl

theorem agrees_empty : Agrees .empty .empty where
  defined name t hdefs := by simp [Catalog.empty] at hdefs
  undefined name _ :=
    ⟨fun path _ hsome => by simp [Process.empty] at hsome,
      fun i hi => absurd hi (Nat.not_lt_zero i), by decide⟩
  loaded name t hcached := by simp [Catalog.empty] at hcached
  unloaded name _ := by simp [Process.empty]

theorem Agrees.run (hagrees : Agrees p c) (events : List Event) :
    ∃ later, runEvents events p = some later ∧
      Agrees later (events.foldl (fun c event => event.record c) c) := by
  induction events generalizing p c with
  | nil => exact ⟨p, rfl, hagrees⟩
  | cons event rest ih =>
    obtain ⟨next, hnext, hagreesNext⟩ := hagrees.step event
    obtain ⟨later, hlater, hagreesLater⟩ := ih hagreesNext
    refine ⟨later, ?_, hagreesLater⟩
    rw [runEvents, List.foldlM_cons, hnext]
    exact hlater

theorem Catalog.defs_find (c : Catalog) (names : List TableName) :
    (c.find names).2.defs = c.defs := by
  induction names with
  | nil => rfl
  | cons name rest ih =>
    rw [Catalog.find]
    cases c.lookup name with
    | some t => rfl
    | none => exact ih

theorem defs_catalogAfter (events : List Event) (name : TableName) :
    (catalogAfter events).defs name = lastDefinition name events := by
  have hfold : ∀ (c : Catalog) (found : Option Table), c.defs name = found →
      (events.foldl (fun c event => event.record c) c).defs name = events.foldl (fun found event =>
          match event with
          | .create d => if d.name = name then some d.table else found
          | .drop other => if other = name then none else found
          | .find _ => found) found := by
    induction events with
    | nil => exact fun c found hfound => hfound
    | cons event rest ih =>
      intro c found hfound
      rw [List.foldl_cons, List.foldl_cons]
      apply ih
      cases event with
      | create d =>
        by_cases hname : d.name = name
        · simp [Event.record, Catalog.create, hname]
        · have hne : name ≠ d.name := fun h => hname h.symm
          simp [Event.record, Catalog.create, hname, hne, hfound]
      | drop other =>
        by_cases hname : other = name
        · simp [Event.record, Catalog.drop, hname]
        · have hne : name ≠ other := fun h => hname h.symm
          simp [Event.record, Catalog.drop, hname, hne, hfound]
      | find other =>
        rw [Event.record, Catalog.defs_find]
        exact hfound
  exact hfold .empty none rfl

theorem Catalog.find_eq_none_iff (c : Catalog) (names : List TableName) : (c.find names).1 = none ↔
    ∀ name ∈ names, c.cached name = none ∧ c.defs name = none := by
  induction names with
  | nil => simp [Catalog.find]
  | cons name rest ih =>
    rw [Catalog.find]
    cases hlookup : c.lookup name with
    | some t =>
      have hknown : ¬ (c.cached name = none ∧ c.defs name = none) := by
        rintro ⟨hcached, hdefs⟩
        simp [Catalog.lookup, hcached, hdefs] at hlookup
      simp [hknown]
    | none =>
      have hunknown : c.cached name = none ∧ c.defs name = none := by
        simpa [Catalog.lookup] using hlookup
      simp [ih, hunknown]

theorem Catalog.find_eq_defs_iff (c : Catalog) (name : TableName) :
    (c.find (name :: strippedNames name)).1 = c.defs name ↔ c.Fresh name := by
  cases hcached : c.cached name with
  | some t =>
    simp only [Catalog.find, Catalog.lookup, Catalog.Fresh, hcached, some_or]
    simp
  | none =>
    cases hdefs : c.defs name with
    | some t =>
      simp [Catalog.find, Catalog.lookup, Catalog.Fresh, hcached, hdefs]
    | none =>
      rw [Catalog.find_eq_none_iff]
      simp [Catalog.Fresh, hcached, hdefs]

/-- One call of `find_table`. -/
theorem Agrees.findTable_returns (hagrees : Agrees p c) (name : TableName) :
    ∃ result later, findTable name p = some (result, later) ∧
      (Returns result (c.defs name) ↔ c.Fresh name) := by
  obtain ⟨result, later, hfind, hreturns, _⟩ :=
    hagrees.findFrom (Nat.lt_succ_self name.length)
  refine ⟨result, later, hfind, ?_⟩
  rw [hreturns.iff_eq]
  exact c.find_eq_defs_iff name

/-- What is loaded is what was found before. -/
theorem Catalog.lookup_find (c : Catalog) (names : List TableName) (name : TableName) :
    (c.find names).2.lookup name = c.lookup name := by
  induction names with
  | nil => rfl
  | cons first rest ih =>
    rw [Catalog.find]
    cases hfirst : c.lookup first with
    | none => exact ih
    | some t =>
      by_cases hname : name = first
      · rw [hname, hfirst]
        simp [Catalog.lookup]
      · simp [Catalog.lookup, hname]

end Runs

/-- After any calls `find_table` finds the last definition exactly if nothing
else was loaded under the name and its schema is not stripped in vain. -/
theorem findTable_returns_iff (events : List Event) (name : TableName) :
    ∃ p result later, runEvents events .empty = some p ∧ findTable name p = some (result, later) ∧
    (Returns result (lastDefinition name events) ↔ (catalogAfter events).Fresh name) := by
  obtain ⟨p, hrun, hagrees⟩ := agrees_empty.run events
  obtain ⟨result, later, hfind, hreturns⟩ := hagrees.findTable_returns name
  refine ⟨p, result, later, hrun, hfind, ?_⟩
  rw [← defs_catalogAfter]
  exact hreturns

/-- A definition that takes the place of another after DROP TABLE is found,
whatever was loaded before and whatever else is looked for afterwards. -/
theorem replaced_table_is_found (events : List Event) (d : Definition) (names : List TableName) :
    ∃ p result later,
    runEvents (events ++ [.drop d.name, .create d] ++ names.map .find) .empty = some p ∧
    findTable d.name p = some (result, later) ∧ Returns result (some d.table) := by
  have hfinds : ∀ c : Catalog, ((names.map Event.find).foldl
      (fun c event => event.record c) c).lookup d.name = c.lookup d.name := by
    induction names with
    | nil => exact fun _ => rfl
    | cons name names ih => exact fun c => (ih _).trans (c.lookup_find _ _)
  obtain ⟨p, hrun, hagrees⟩ :=
    agrees_empty.run (events ++ [.drop d.name, .create d] ++ names.map .find)
  obtain ⟨result, later, hfind, hreturns, -⟩ := hagrees.findFrom (Nat.lt_succ_self d.name.length)
  refine ⟨p, result, later, hrun, hfind, ?_⟩
  rw [Catalog.find, List.foldl_append, hfinds] at hreturns
  simpa [Event.record, Catalog.create, Catalog.drop, Catalog.lookup] using hreturns

namespace FindTableWitness

open RoundTripWitness

theorem exists_definition (w : Bool) : ∃ d : Definition, d.table = table w := by
  obtain ⟨written, _, hpacked⟩ := isPacked_compressStatement
    (fun _ => 2000) 1000 (tableAt (w := w)) (by decide)
    (fun _ => ⟨by cases w <;> decide, fun b hb => Or.inl hb⟩) (by cases w <;> decide)
    (by cases w <;> decide)
  exact ⟨⟨[], _, table w, hpacked, by
    rw [hpacked.length]
    cases w <;> decide⟩, rfl⟩

theorem name_eq {d : Definition} {w : Bool} (htable : d.table = table w) : d.name = ['T'] := by
  rw [Definition.name, htable]
  cases w <;> rfl

theorem table_ne : table false ≠ table true := by
  intro heq
  have htypes := congrArg (fun t => t.columns.map Column.type) heq
  simp [table, columnType] at htypes

end FindTableWitness

open FindTableWitness RoundTripWitness in
/-- A table that was created again without DROP TABLE is found as it was
before, and `S.T` is found though there is only `T`. -/
theorem other_definition_found : (∃ first second : Definition, first.name = second.name ∧
      first.table = table false ∧ second.table = table true ∧
      ∃ p result later, runEvents [.create first, .find ['T'], .create second] .empty = some p ∧
        findTable ['T'] p = some (result, later) ∧ lastDefinition ['T'] [.create first, .find ['T'],
        .create second] = some (table true) ∧ ¬ Returns result (some (table true))) ∧
    ∃ d : Definition, ∃ p result later, runEvents [.create d] .empty = some p ∧ findTable ['S', '.',
      'T'] p = some (result, later) ∧ lastDefinition ['S', '.', 'T'] [.create d] = none ∧
      ¬ Returns result none := by
  obtain ⟨first, hfirst⟩ := exists_definition false
  obtain ⟨second, hsecond⟩ := exists_definition true
  constructor
  · refine ⟨first, second, ?_, hfirst, hsecond, ?_⟩
    · rw [name_eq hfirst, name_eq hsecond]
    · obtain ⟨p, hrun, hagrees⟩ := agrees_empty.run [.create first, .find ['T'], .create second]
      obtain ⟨result, later, hfind, hreturns⟩ :=
        hagrees.findTable_returns ['T']
      refine ⟨p, result, later, hrun, hfind, ?_, ?_⟩
      · simp [lastDefinition, name_eq hfirst, name_eq hsecond, hsecond]
      · have hfresh := hreturns.not.mpr (by
          simp [Catalog.Fresh, Event.record, Catalog.create, Catalog.find, Catalog.lookup,
            Catalog.empty, name_eq hfirst, name_eq hsecond, hfirst, hsecond, table_ne])
        simpa [Event.record, Catalog.create, name_eq hsecond, hsecond] using hfresh
  · obtain ⟨p, hrun, hagrees⟩ := agrees_empty.run [.create first]
    obtain ⟨result, later, hfind, hreturns⟩ :=
      hagrees.findTable_returns ['S', '.', 'T']
    refine ⟨first, p, result, later, hrun, hfind, ?_, ?_⟩
    · simp [lastDefinition, name_eq hfirst]
    · have hfresh := hreturns.not.mpr (by
        simp [Catalog.Fresh, Event.record, Catalog.create, Catalog.empty,
          strippedNames, name_eq hfirst])
      simpa [Event.record, Catalog.create, Catalog.empty, name_eq hfirst] using hfresh

end Octo
