/-
The triggers of a cross reference.  `handleSet` runs after every SET of the
column and every KILL of a row of the base table.  Below the cross reference
there is a count for each value and an entry for each row that has the value;
the total is at its root.
-/
import Octo.OrderLoop

namespace Octo

open GlobalTree Finset Global Function

/-- What a node of a cross reference holds: a count, or the empty text. -/
inductive XrefValue
  | count (n : ℤ)
  | entry
deriving DecidableEq, Repr

def XrefValue.asNumber : Option XrefValue → ℤ
  | some (.count n) => n
  | _ => 0

variable {σ : Type*} [LinearOrder σ]

/-- `$GET` of a node as a number. -/
def xrefCount (xref : Global σ XrefValue) (path : List σ) : ℤ :=
  XrefValue.asNumber (xref.get path)

/-- `$INCREMENT` by an amount. -/
def incrementBy (amount : ℤ) (path : List σ) (xref : Global σ XrefValue) : Global σ XrefValue :=
  xref.set path (.count (xrefCount xref path + amount))

/-- `KILL:node=0 node`, once the node has been counted down. -/
def killIfZero (path : List σ) (xref : Global σ XrefValue) : Global σ XrefValue :=
  if xrefCount xref path = 0 then xref.kill path else xref

/-- A call of `handleSet`: `$ZTRIGGEROP` with the subscripts of the row and,
for a SET, the piece before and after it.  `none` is the empty text. -/
inductive Trigger (σ : Type*)
  | set (keys : List σ) (oldValue newValue : Option σ)
  | kill (keys : List σ)
deriving DecidableEq, Repr

/-- The body of the loop over the values, for a KILL. -/
def handleKillValue (keys : List σ) (val : σ) (xref : Global σ XrefValue) : Global σ XrefValue :=
  if xref.data (val :: keys) ≠ 0 then
    killIfZero [] (incrementBy (-1) [] (killIfZero [val]
      (incrementBy (-1) [val] (xref.kill (val :: keys)))))
  else xref

/-- Take out the entry of the old value of a row. -/
def handleOldValue (keys : List σ) (oldValue : σ)
    (xref : Global σ XrefValue) : Global σ XrefValue :=
  -- Both branches of the $SELECT count the total down.
  killIfZero [oldValue] (incrementBy (-1) [] (incrementBy (-1) [oldValue]
    (xref.kill (oldValue :: keys))))

def handleNewValue (keys : List σ) (newValue : σ)
    (xref : Global σ XrefValue) : Global σ XrefValue :=
  incrementBy 1 [] (incrementBy 1 [newValue] (xref.set (newValue :: keys) .entry))

/-- `handleSet`.  The loop of a KILL has no more rounds than there are
nodes. -/
def handleSet (xref : Global σ XrefValue) : Trigger σ → Option (Global σ XrefValue)
  | .kill keys =>
    forOrder id [] (handleKillValue keys) (xref.nodes.length + 1) none xref
  | .set keys oldValue newValue =>
    let xref := oldValue.elim xref (handleOldValue keys · xref)
    some (newValue.elim xref (handleNewValue keys · xref))

def handleAll (xref : Global σ XrefValue) (triggers : List (Trigger σ)) :
    Option (Global σ XrefValue) :=
  triggers.foldlM handleSet xref

namespace Trigger

/-- What is done to the base table, given by the column of each row. -/
def apply (table : List σ → Option σ) : Trigger σ → List σ → Option σ
  | set keys _ newValue => Function.update table keys newValue
  | kill keys => Function.update table keys none

/-- The trigger is about a row of a table with `n` keys and is told the value
that the column had. -/
def IsTrue (n : ℕ) (table : List σ → Option σ) : Trigger σ → Prop
  | set keys oldValue _ => keys.length = n ∧ table keys = oldValue
  | kill keys => keys.length = n

/-- Each trigger of a sequence is true when it is called. -/
def AllTrue (n : ℕ) : (List σ → Option σ) → List (Trigger σ) → Prop
  | _, [] => True
  | table, trigger :: rest =>
    trigger.IsTrue n table ∧ AllTrue n (trigger.apply table) rest

end Trigger

/-- The entries of a cross reference of a table with `n` keys. -/
def xrefEntries (n : ℕ) (xref : Global σ XrefValue) : Finset (List σ) :=
  xref.paths.filter fun path => path.length = n + 1

def entriesBelow (entries : Finset (List σ)) (path : List σ) : Finset (List σ) :=
  entries.filter fun entry => path <+: entry

/-- The cross reference says which rows have which value, and how many. -/
structure XrefConsistent (n : ℕ) (table : List σ → Option σ)
    (xref : Global σ XrefValue) : Prop where
  nodes : ∀ path ∈ xref.paths, path.length ≤ 1 ∨ path.length = n + 1
  entry_iff : ∀ value keys, keys.length = n →
    (value :: keys ∈ xrefEntries n xref ↔ table keys = some value)
  count : ∀ value, xrefCount xref [value] = (entriesBelow (xrefEntries n xref) [value]).card
  total : xrefCount xref [] = (xrefEntries n xref).card

section Writes

variable {n : ℕ} {entries : Finset (List σ)} {counts : List σ → ℤ} {xref : Global σ XrefValue}

/-- A cross reference with given entries and counts. -/
structure XrefHolds (n : ℕ) (entries : Finset (List σ)) (counts : List σ → ℤ)
    (xref : Global σ XrefValue) : Prop where
  nodes : ∀ path ∈ xref.paths, path.length ≤ 1 ∨ path.length = n + 1
  entries_eq : xrefEntries n xref = entries
  counts_eq : ∀ path, path.length ≤ 1 → xrefCount xref path = counts path

variable {path entry : List σ}

omit [LinearOrder σ] in
theorem ne_of_length_le (hn : 0 < n) (hpath : path.length ≤ 1)
    (hentry : entry.length = n + 1) : path ≠ entry := by
  rintro rfl
  omega

theorem xrefCount_incrementBy (amount : ℤ) (path : List σ)
    (xref : Global σ XrefValue) : xrefCount (incrementBy amount path xref) =
      update (xrefCount xref) path (xrefCount xref path + amount) := by
  funext other
  by_cases hother : other = path
  · subst hother
    simp [xrefCount, incrementBy, get_set_self, XrefValue.asNumber]
  · simp [xrefCount, incrementBy, get_set_ne _ _ hother, hother]

section

variable (hn : 0 < n) (hholds : XrefHolds n entries counts xref)
include hn hholds

theorem XrefHolds.increment (amount : ℤ) (hpath : path.length ≤ 1) :
    XrefHolds n entries (update counts path (counts path + amount))
    (incrementBy amount path xref) where
  nodes := by
    intro other hother
    rw [incrementBy, paths_set, mem_insert] at hother
    rcases hother with rfl | hother
    · exact Or.inl hpath
    · exact hholds.nodes other hother
  entries_eq := by
    rw [← hholds.entries_eq, xrefEntries, incrementBy, paths_set,
      filter_insert, if_neg (by omega), xrefEntries]
  counts_eq := by
    intro other hother
    rw [xrefCount_incrementBy]
    by_cases heq : other = path
    · subst heq
      simp [hholds.counts_eq other hother]
    · simp [heq, hholds.counts_eq other hother]

theorem XrefHolds.setEntry (hentry : entry.length = n + 1) :
    XrefHolds n (insert entry entries) counts (xref.set entry .entry) where
  nodes := by
    intro other hother
    rw [paths_set, mem_insert] at hother
    rcases hother with rfl | hother
    · exact Or.inr hentry
    · exact hholds.nodes other hother
  entries_eq := by
    rw [← hholds.entries_eq, xrefEntries, paths_set, filter_insert, if_pos hentry, xrefEntries]
  counts_eq := by
    intro other hother
    rw [xrefCount, get_set_ne _ _ (ne_of_length_le hn hother hentry)]
    exact hholds.counts_eq other hother

theorem XrefHolds.killEntry (hentry : entry.length = n + 1) :
    XrefHolds n (entries.erase entry) counts (xref.kill entry) where
  nodes := by
    intro other hother
    rw [paths_kill, mem_filter] at hother
    exact hholds.nodes other hother.1
  entries_eq := by
    rw [← hholds.entries_eq]
    ext other
    simp only [xrefEntries, paths_kill, mem_filter, mem_erase]
    constructor
    · rintro ⟨⟨hother, hnot⟩, hlength⟩
      refine ⟨?_, hother, hlength⟩
      rintro rfl
      exact hnot List.prefix_rfl
    · rintro ⟨hne, hother, hlength⟩
      refine ⟨⟨hother, ?_⟩, hlength⟩
      exact fun hpre => hne (hpre.eq_of_length (by omega)).symm
  counts_eq := by
    intro other hother
    have hnot : ¬ entry <+: other := fun hpre => by
      have := hpre.length_le
      omega
    rw [xrefCount, get_kill, if_neg hnot]
    exact hholds.counts_eq other hother

end

/-- A count without entries may go. -/
theorem XrefHolds.killCount (hholds : XrefHolds n entries counts xref)
    (hempty : entriesBelow entries path = ∅)
    (hzero : ∀ other, other.length ≤ 1 → path <+: other → counts other = 0) :
    XrefHolds n entries counts (xref.kill path) where
  nodes := by
    intro other hother
    rw [paths_kill, mem_filter] at hother
    exact hholds.nodes other hother.1
  entries_eq := by
    rw [← hholds.entries_eq] at hempty ⊢
    ext other
    simp only [xrefEntries, paths_kill, mem_filter]
    constructor
    · rintro ⟨⟨hother, _⟩, hlength⟩
      exact ⟨hother, hlength⟩
    · rintro ⟨hother, hlength⟩
      refine ⟨⟨hother, ?_⟩, hlength⟩
      intro hpre
      have hmem : other ∈ entriesBelow (xrefEntries n xref) path := by
        simp [entriesBelow, xrefEntries, hother, hlength, hpre]
      rw [hempty] at hmem
      exact notMem_empty other hmem
  counts_eq := by
    intro other hother
    rw [xrefCount, get_kill]
    split_ifs with hpre
    · rw [hzero other hother hpre]
      rfl
    · exact hholds.counts_eq other hother

theorem XrefHolds.congr {other : List σ → ℤ} (hholds : XrefHolds n entries counts xref)
    (hcounts : ∀ path, path.length ≤ 1 → counts path = other path) :
    XrefHolds n entries other xref :=
  ⟨hholds.nodes, hholds.entries_eq, fun path hpath =>
    (hholds.counts_eq path hpath).trans (hcounts path hpath)⟩

end Writes

def countsOf (entries : Finset (List σ)) (path : List σ) : ℤ :=
  (entriesBelow entries path).card

section Counts

variable {entries : Finset (List σ)}

variable {entry : List σ}

theorem countsOf_insert (hentry : entry ∉ entries)
    (path : List σ) : countsOf (insert entry entries) path =
      countsOf entries path + if path <+: entry then 1 else 0 := by
  rw [countsOf, countsOf, entriesBelow, entriesBelow, filter_insert]
  split_ifs with hpre
  · rw [card_insert_of_notMem (by simp [hentry])]
    rfl
  · simp

theorem countsOf_erase (hentry : entry ∈ entries)
    (path : List σ) : countsOf (entries.erase entry) path =
      countsOf entries path + if path <+: entry then -1 else 0 := by
  have hinsert := countsOf_insert (notMem_erase entry entries) path
  rw [insert_erase hentry] at hinsert
  split_ifs at hinsert ⊢ <;> omega

theorem entriesBelow_eq_empty {path : List σ}
    (hzero : countsOf entries path = 0) : entriesBelow entries path = ∅ := by
  rw [countsOf] at hzero
  exact card_eq_zero.mp (by exact_mod_cast hzero)

theorem countsOf_eq_zero_of_isPrefix {path other : List σ} (hzero : countsOf entries path = 0)
    (hpre : path <+: other) : countsOf entries other = 0 := by
  have hempty := entriesBelow_eq_empty hzero
  have hsubset : entriesBelow entries other ⊆ entriesBelow entries path := by
    intro entry hentry
    rw [entriesBelow, mem_filter] at hentry ⊢
    exact ⟨hentry.1, hpre.trans hentry.2⟩
  rw [hempty, subset_empty] at hsubset
  simp [countsOf, hsubset]

end Counts

/-- The counts of a set of entries while some of them have not been counted:
each count lags behind by a given amount. -/
def laggedCounts (entries : Finset (List σ)) (lag : List σ → ℤ) (path : List σ) : ℤ :=
  countsOf entries path - lag path

/-- The counts of a value and of all entries may go down by one: they do not
come to zero while entries are left that have not been counted. -/
structure Spared (lag counts : List σ → ℤ) (value : σ) : Prop where
  value : lag [value] = 0 ∨ counts [value] ≠ 1
  total : (∀ path, path.length ≤ 1 → lag path = 0) ∨ counts [] ≠ 1

section Steps

variable {n : ℕ} {entries : Finset (List σ)} {counts lag : List σ → ℤ} {xref : Global σ XrefValue}

variable {path : List σ}

theorem XrefHolds.killIfZero (hholds : XrefHolds n entries counts xref) (hpath : path.length ≤ 1)
    (hcounts : counts path = 0 → ∀ other, other.length ≤ 1 → path <+: other →
    counts other = countsOf entries other) : XrefHolds n entries counts (killIfZero path xref) := by
  rw [Octo.killIfZero]
  split_ifs with hzero
  · rw [hholds.counts_eq path hpath] at hzero
    have hentries := hcounts hzero
    rw [hentries path hpath List.prefix_rfl] at hzero
    apply hholds.killCount (entriesBelow_eq_empty hzero)
    intro other hother hpre
    rw [hentries other hother hpre]
    exact countsOf_eq_zero_of_isPrefix hzero hpre
  · exact hholds

variable {value : σ}

omit [LinearOrder σ] in
theorem eq_of_singleton_isPrefix
    (hpath : path.length ≤ 1) (hpre : [value] <+: path) : path = [value] :=
  (hpre.eq_of_length (le_antisymm hpre.length_le hpath)).symm

variable {keys : List σ}

/-- Counting the value and the total of an entry up or down gives the counts
with it or without it. -/
theorem update_laggedCounts {others : Finset (List σ)} {amount : ℤ}
    (hcounts : ∀ path, countsOf others path = countsOf entries path +
      if path <+: value :: keys then amount else 0) (path : List σ) (hpath : path.length ≤ 1) :
    update (update (laggedCounts entries lag) [value]
    (laggedCounts entries lag [value] + amount)) [] (laggedCounts entries lag [] + amount) path =
    laggedCounts others lag path := by
  simp only [laggedCounts, hcounts]
  rcases path with _ | ⟨first, _ | ⟨second, rest⟩⟩
  · simp
    omega
  · by_cases hfirst : first = value
    · simp [hfirst]
      omega
    · simp [hfirst, List.cons_prefix_cons, laggedCounts]
  · simp at hpath

theorem laggedCounts_erase_value (hentry : value :: keys ∈ entries) :
    laggedCounts (entries.erase (value :: keys)) lag [value] =
    laggedCounts entries lag [value] - 1 := by
  have hpre : [value] <+: value :: keys := List.prefix_append [value] keys
  rw [laggedCounts, countsOf_erase hentry, if_pos hpre, laggedCounts]
  omega

theorem laggedCounts_eq_countsOf (hlag : lag path = 0) :
    laggedCounts entries lag path = countsOf entries path := by
  rw [laggedCounts, hlag, Int.sub_zero]

section

variable (hn : 0 < n) (hholds : XrefHolds n entries (laggedCounts entries lag) xref)
  (hkeys : keys.length = n)
include hn hholds hkeys

theorem handleOldValue_holds (hentry : value :: keys ∈ entries)
    (hspared : lag [value] = 0 ∨ laggedCounts entries lag [value] ≠ 1) :
    XrefHolds n (entries.erase (value :: keys)) (laggedCounts (entries.erase (value :: keys)) lag)
    (handleOldValue keys value xref) := by
  have hkilled := hholds.killEntry hn (by simp [hkeys] : (value :: keys).length = n + 1)
  have hvalue := hkilled.increment hn (-1) (by simp : [value].length ≤ 1)
  have htotal := hvalue.increment hn (-1) (by simp : ([] : List σ).length ≤ 1)
  have hcounts := htotal.congr fun path hpath => by
    simpa using update_laggedCounts (countsOf_erase hentry) path hpath
  refine hcounts.killIfZero (by simp) fun hzero other hother hpre => ?_
  rw [eq_of_singleton_isPrefix hother hpre]
  rw [laggedCounts_erase_value hentry] at hzero
  rcases hspared with hlag | hone
  · exact laggedCounts_eq_countsOf hlag
  · omega

theorem handleNewValue_holds (hentry : value :: keys ∉ entries) :
    XrefHolds n (insert (value :: keys) entries) (laggedCounts (insert (value :: keys) entries) lag)
    (handleNewValue keys value xref) := by
  have hset := hholds.setEntry hn (by simp [hkeys] : (value :: keys).length = n + 1)
  have hvalue := hset.increment hn 1 (by simp : [value].length ≤ 1)
  have htotal := hvalue.increment hn 1 (by simp : ([] : List σ).length ≤ 1)
  exact htotal.congr fun path hpath => by
    simpa using update_laggedCounts (countsOf_insert hentry) path hpath

end

/-- A node with the subscripts of an entry has data only if it is one. -/
theorem XrefHolds.data_ne_zero_iff (hholds : XrefHolds n entries counts xref) {entry : List σ}
    (hn : 0 < n) (hentry : entry.length = n + 1) : xref.data entry ≠ 0 ↔ entry ∈ entries := by
  rw [data_ne_zero, hasData_iff_paths, ← hholds.entries_eq, xrefEntries, mem_filter]
  constructor
  · rintro ⟨other, hother, hpre⟩
    have hle := hpre.length_le
    have hlength : other.length = n + 1 := by
      have := hholds.nodes other hother
      omega
    rw [hpre.eq_of_length (by omega)]
    exact ⟨hother, hlength⟩
  · exact fun hmem => ⟨entry, hmem.1, List.prefix_rfl⟩

theorem handleKillValue_holds (hn : 0 < n)
    (hholds : XrefHolds n entries (laggedCounts entries lag) xref) (value : σ)
    (hkeys : keys.length = n) (hspared : value :: keys ∈ entries →
    Spared lag (laggedCounts entries lag) value) : XrefHolds n (entries.erase (value :: keys))
    (laggedCounts (entries.erase (value :: keys)) lag) (handleKillValue keys value xref) := by
  have hlength : (value :: keys).length = n + 1 := by simp [hkeys]
  rw [handleKillValue]
  split_ifs with hdata
  · have hentry := (hholds.data_ne_zero_iff hn hlength).mp hdata
    have hupdate := @update_laggedCounts _ _ entries lag _ _ _ _ (countsOf_erase hentry)
    obtain ⟨hspareValue, hspareTotal⟩ := hspared hentry
    have hkilled := hholds.killEntry hn hlength
    have hvalue := (hkilled.increment hn (-1) (by simp : [value].length ≤ 1))
    have hpruned := hvalue.killIfZero (by simp : [value].length ≤ 1) (by
      intro hzero other hother hpre
      have hcount := hupdate [value] (by simp)
      rw [update_of_ne (by simp)] at hcount
      rw [eq_of_singleton_isPrefix hother hpre, hcount]
      rw [update_self] at hzero
      rcases hspareValue with hlag | hone
      · exact laggedCounts_eq_countsOf hlag
      · omega)
    have htotal := hpruned.increment hn (-1) (by simp : ([] : List σ).length ≤ 1)
    have hcounts := htotal.congr fun path hpath => by
      simpa using hupdate path hpath
    refine hcounts.killIfZero (by simp) fun hzero other hother _ => ?_
    have hcount := hupdate [] (by simp)
    rw [update_self] at hcount
    rcases hspareTotal with hlag | hone
    · exact laggedCounts_eq_countsOf (hlag other hother)
    · omega
  · rw [hholds.data_ne_zero_iff hn hlength] at hdata
    rwa [erase_eq_of_notMem hdata]

theorem paths_killIfZero_subset (path : List σ)
    (xref : Global σ XrefValue) : (killIfZero path xref).paths ⊆ xref.paths := by
  rw [killIfZero]
  split_ifs
  · rw [paths_kill]
    exact filter_subset _ _
  · exact Finset.Subset.refl _

/-- The loop adds no value. -/
theorem hasData_of_handleKillValue {next : σ} (hvalue : xref.HasData [value])
    (hdata : (handleKillValue keys value xref).HasData [next]) : xref.HasData [next] := by
  rw [handleKillValue] at hdata
  split_ifs at hdata
  · obtain ⟨path, hpath, hpre⟩ := hasData_iff_paths.mp hdata
    have htotal := paths_killIfZero_subset _ _ hpath
    rw [incrementBy, paths_set, mem_insert] at htotal
    rcases htotal with rfl | htotal
    · simp at hpre
    · have hcount := paths_killIfZero_subset _ _ htotal
      rw [incrementBy, paths_set, mem_insert] at hcount
      rcases hcount with rfl | hcount
      · have heq : next = value := by
          simpa [List.cons_prefix_cons] using hpre
        rwa [heq]
      · rw [paths_kill, mem_filter] at hcount
        exact hasData_iff_paths.mpr ⟨path, hcount.1, hpre⟩
  · exact hdata

theorem XrefHolds.hasData_value (hholds : XrefHolds n entries counts xref)
    (hentry : value :: keys ∈ entries) : xref.HasData [value] := by
  rw [← hholds.entries_eq, xrefEntries, mem_filter] at hentry
  exact hasData_iff_paths.mpr ⟨_, hentry.1, List.prefix_append [value] keys⟩

/-- The row has at most one entry, and its counts may go down. -/
structure Killable (lag : List σ → ℤ) (keys : List σ) (entries : Finset (List σ)) : Prop where
  unique : ∀ first second, first :: keys ∈ entries → second :: keys ∈ entries →
    first = second
  spared : ∀ value, value :: keys ∈ entries → Spared lag (laggedCounts entries lag) value

theorem Killable.erase (hkillable : Killable lag keys entries)
    (value : σ) : Killable lag keys (entries.erase (value :: keys)) := by
  by_cases hentry : value :: keys ∈ entries
  · have hnone : ∀ other, other :: keys ∉ entries.erase (value :: keys) := by
      intro other hother
      rw [mem_erase] at hother
      exact hother.1 (by rw [hkillable.unique other value hother.2 hentry])
    exact ⟨fun first _ hfirst => absurd hfirst (hnone first),
      fun other hother => absurd hother (hnone other)⟩
  · rwa [erase_eq_of_notMem hentry]

/-- The state of the loop of a KILL: entries of the row are left only for
values still to come. -/
structure KillProgress (n : ℕ) (lag : List σ → ℤ) (keys : List σ)
    (target : Finset (List σ)) (after : Option σ) (xref : Global σ XrefValue) : Prop where
  holds : ∃ entries, XrefHolds n entries (laggedCounts entries lag) xref ∧
    Killable lag keys entries ∧ entries.filter (·.tail ≠ keys) = target ∧
    ∀ value, value :: keys ∈ entries → ∀ last ∈ after, last < value

theorem KillProgress.step (hn : 0 < n) (hkeys : keys.length = n) {target : Finset (List σ)}
    {after : Option σ} (hprogress : KillProgress n lag keys target after xref)
    (horder : xref.order [] after = some value) : KillProgress n lag keys target (some value)
    (handleKillValue keys value xref) := by
  obtain ⟨entries, hholds, hkillable, htarget, hahead⟩ := hprogress.holds
  refine ⟨_, handleKillValue_holds hn hholds value hkeys
    (hkillable.spared value), hkillable.erase value, ?_, ?_⟩
  · rw [← htarget]
    ext entry
    simp only [mem_filter, mem_erase]
    constructor
    · exact fun h => ⟨h.1.2, h.2⟩
    · rintro ⟨hentry, htail⟩
      refine ⟨⟨?_, hentry⟩, htail⟩
      rintro rfl
      exact htail rfl
  · intro other hother last hlast
    rw [mem_erase] at hother
    obtain rfl : value = last := by simpa using hlast
    have hfollows : xref.Follows [] after other :=
      ⟨hholds.hasData_value hother.2, hahead other hother.2⟩
    have hle := (order_eq_some_iff.mp horder).2 hfollows
    exact lt_of_le_of_ne hle fun heq => hother.1 (by rw [heq])

/-- At the end of the loop of a KILL the row has no entry. -/
theorem handleKill_holds (hn : 0 < n) (hholds : XrefHolds n entries (laggedCounts entries lag) xref)
    (hkeys : keys.length = n) (hkillable : Killable lag keys entries) :
    ∃ later, handleSet xref (.kill keys) = some later ∧ XrefHolds n (entries.filter (·.tail ≠ keys))
    (laggedCounts (entries.filter (·.tail ≠ keys)) lag) later := by
  have hstart : KillProgress n lag keys (entries.filter (·.tail ≠ keys)) none
      xref := ⟨entries, hholds, hkillable, rfl, by simp⟩
  obtain ⟨later, last, hloop, hprogress, hend⟩ := forOrder_rule
    (KillProgress n lag keys (entries.filter (·.tail ≠ keys)))
    (fun after state value hprogress horder =>
      ⟨hprogress.step hn hkeys horder, fun next hdata =>
        hasData_of_handleKillValue (order_eq_some_iff.mp horder).1.1 hdata⟩)
    hstart (Nat.lt_succ_of_le (card_remaining_le xref [] none))
  refine ⟨later, hloop, ?_⟩
  obtain ⟨left, hleft, -, htarget, hahead⟩ := hprogress.holds
  have hnone : left.filter (·.tail ≠ keys) = left := by
    rw [filter_eq_self]
    intro entry hentry htail
    have hmem := hentry
    rw [← hleft.entries_eq, xrefEntries, mem_filter] at hmem
    cases entry with
    | nil => simp at hmem
    | cons value rest =>
      obtain rfl : rest = keys := htail
      exact hend value ⟨hleft.hasData_value hentry, hahead value hentry⟩
  rw [← htarget, hnone]
  exact hleft

end Steps

/-- The cross reference has the entries of a table and counts that lag behind
them. -/
structure XrefTracks (n : ℕ) (lag : List σ → ℤ) (table : List σ → Option σ)
    (xref : Global σ XrefValue) : Prop where
  holds : XrefHolds n (xrefEntries n xref) (laggedCounts (xrefEntries n xref) lag) xref
  entry_iff : ∀ value keys, keys.length = n →
    (value :: keys ∈ xrefEntries n xref ↔ table keys = some value)

/-- The trigger brings no count to zero that lags behind its entries. -/
def Trigger.Spares (lag : List σ → ℤ) (table : List σ → Option σ)
    (xref : Global σ XrefValue) : Trigger σ → Prop
  | set _ oldValue _ => ∀ value ∈ oldValue, lag [value] = 0 ∨ xrefCount xref [value] ≠ 1
  | kill keys => ∀ value ∈ table keys, Spared lag (xrefCount xref) value

section Runs

variable {n : ℕ} {lag : List σ → ℤ} {table : List σ → Option σ} {xref : Global σ XrefValue}

theorem xrefConsistent_iff_tracks :
    XrefConsistent n table xref ↔ XrefTracks n (fun _ => 0) table xref := by
  constructor
  · intro hconsistent
    refine ⟨⟨hconsistent.nodes, rfl, fun path hpath => ?_⟩, hconsistent.entry_iff⟩
    rw [laggedCounts_eq_countsOf rfl]
    rcases path with _ | ⟨value, _ | ⟨second, rest⟩⟩
    · simpa [countsOf, entriesBelow] using hconsistent.total
    · exact hconsistent.count value
    · simp at hpath
  · intro htracks
    have hcounts : ∀ path : List σ, path.length ≤ 1 → xrefCount xref path =
        countsOf (xrefEntries n xref) path := by
      intro path hpath
      rw [htracks.holds.counts_eq path hpath, laggedCounts_eq_countsOf rfl]
    refine ⟨htracks.holds.nodes, htracks.entry_iff, fun value => hcounts [value] (by simp), ?_⟩
    rw [hcounts [] (by simp)]
    simp [countsOf, entriesBelow]

theorem XrefHolds.tracks {entries : Finset (List σ)}
    (hholds : XrefHolds n entries (laggedCounts entries lag) xref)
    (hentries : ∀ value keys, keys.length = n →
    (value :: keys ∈ entries ↔ table keys = some value)) : XrefTracks n lag table xref := by
  have heq := hholds.entries_eq
  subst heq
  exact ⟨hholds, hentries⟩

theorem XrefTracks.congr {lag' : List σ → ℤ} {table' : List σ → Option σ}
    (htracks : XrefTracks n lag table xref) (hlag : ∀ path, path.length ≤ 1 → lag path = lag' path)
    (htable : ∀ keys, keys.length = n → table keys = table' keys) :
    XrefTracks n lag' table' xref where
  holds := htracks.holds.congr fun path hpath => by
    rw [laggedCounts, laggedCounts, hlag path hpath]
  entry_iff value keys hkeys := by
    rw [htracks.entry_iff value keys hkeys, htable keys hkeys]

variable {keys : List σ}

theorem XrefTracks.handleOldValue (hn : 0 < n) (htracks : XrefTracks n lag table xref) {value : σ}
    (hkeys : keys.length = n) (hvalue : table keys = some value)
    (hspared : lag [value] = 0 ∨ xrefCount xref [value] ≠ 1) :
    XrefTracks n lag (update table keys none) (handleOldValue keys value xref) := by
  have hentry := (htracks.entry_iff value keys hkeys).mpr hvalue
  rw [htracks.holds.counts_eq [value] (by simp)] at hspared
  apply (handleOldValue_holds hn htracks.holds hkeys hentry hspared).tracks
  intro other others hothers
  rw [mem_erase, htracks.entry_iff other others hothers]
  by_cases heq : others = keys
  · subst heq
    simp [hvalue, eq_comm]
  · simp [heq]

theorem XrefTracks.handleNewValue (hn : 0 < n) (htracks : XrefTracks n lag table xref) (value : σ)
    (hkeys : keys.length = n) (hnone : table keys = none) :
    XrefTracks n lag (update table keys (some value))
    (handleNewValue keys value xref) := by
  have hentry : value :: keys ∉ xrefEntries n xref := by
    rw [htracks.entry_iff value keys hkeys, hnone]
    simp
  apply (handleNewValue_holds hn htracks.holds hkeys hentry).tracks
  intro other others hothers
  rw [mem_insert, htracks.entry_iff other others hothers]
  by_cases heq : others = keys
  · subst heq
    simp [hnone, eq_comm]
  · simp [heq]

theorem XrefTracks.killable (htracks : XrefTracks n lag table xref)
    (hkeys : keys.length = n) (hspares : (Trigger.kill keys).Spares lag table xref) :
    Killable lag keys (xrefEntries n xref) where
  unique first second hfirst hsecond := by
    rw [htracks.entry_iff _ keys hkeys] at hfirst hsecond
    exact Option.some.inj (hfirst.symm.trans hsecond)
  spared value hvalue := by
    rw [htracks.entry_iff value keys hkeys] at hvalue
    obtain ⟨hcount, htotal⟩ := hspares value hvalue
    rw [htracks.holds.counts_eq _ (by simp)] at hcount htotal
    exact ⟨hcount, htotal⟩

/-- One trigger. -/
theorem XrefTracks.handleSet (hn : 0 < n) (htracks : XrefTracks n lag table xref)
    {trigger : Trigger σ} (htrue : trigger.IsTrue n table)
    (hspares : trigger.Spares lag table xref) : ∃ later, handleSet xref trigger = some later ∧
    XrefTracks n lag (trigger.apply table) later := by
  cases trigger with
  | kill keys =>
    have hkeys : keys.length = n := htrue
    obtain ⟨later, hlater, hholds⟩ :=
      handleKill_holds hn htracks.holds hkeys (htracks.killable hkeys hspares)
    refine ⟨later, hlater, hholds.tracks ?_⟩
    intro value others hothers
    rw [mem_filter, htracks.entry_iff value others hothers, Trigger.apply]
    by_cases heq : others = keys
    · simp [heq]
    · simp [heq]
  | set keys oldValue newValue =>
    obtain ⟨hkeys, hold⟩ := htrue
    refine ⟨_, rfl, ?_⟩
    have hremoved : XrefTracks n lag (update table keys none)
        (oldValue.elim xref (Octo.handleOldValue keys · xref)) := by
      cases oldValue with
      | none =>
        have hsame : update table keys none = table := by
          rw [← hold, update_eq_self]
        rwa [hsame]
      | some value =>
        exact htracks.handleOldValue hn hkeys hold (hspares value rfl)
    cases newValue with
    | none => exact hremoved
    | some value =>
      have hadded := hremoved.handleNewValue hn value hkeys (update_self keys none table)
      rwa [update_idem] at hadded

theorem Trigger.spares_of_no_lag (trigger : Trigger σ) :
    trigger.Spares (fun _ => 0) table xref := by
  cases trigger with
  | set keys oldValue newValue => exact fun _ _ => .inl rfl
  | kill keys => exact fun _ _ => ⟨.inl rfl, .inl fun _ _ => rfl⟩

end Runs

/-- A cross reference that is consistent stays so under any sequence of
triggers, which all come to an end. -/
theorem handleAll_consistent (n : ℕ) (hn : 0 < n) (triggers : List (Trigger σ))
    (table : List σ → Option σ) (xref : Global σ XrefValue)
    (hconsistent : XrefConsistent n table xref) (htrue : Trigger.AllTrue n table triggers) :
    ∃ later, handleAll xref triggers = some later ∧
    XrefConsistent n (triggers.foldl Trigger.apply table) later := by
  induction triggers generalizing table xref with
  | nil => exact ⟨xref, rfl, hconsistent⟩
  | cons trigger rest ih =>
    obtain ⟨middle, hmiddle, hmiddleTracks⟩ :=
      (xrefConsistent_iff_tracks.mp hconsistent).handleSet hn htrue.1 trigger.spares_of_no_lag
    obtain ⟨later, hlater, hlaterConsistent⟩ :=
      ih (trigger.apply table) middle (xrefConsistent_iff_tracks.mpr hmiddleTracks) htrue.2
    refine ⟨later, ?_, hlaterConsistent⟩
    rw [handleAll, List.foldlM_cons, hmiddle]
    exact hlater

/-- A row gets a value, loses it to another row and is killed. -/
theorem handleAll_consistent_three : ∃ later,
    handleAll (.empty : Global ℕ XrefValue) [.set [1] none (some 5), .set [2] none (some 5),
    .set [1] (some 5) (some 7), .kill [2]] = some later ∧
    XrefConsistent 1 ([.set [1] none (some 5), .set [2] none (some 5),
    .set [1] (some 5) (some 7), .kill [2]].foldl Trigger.apply fun _ => none) later := by
  apply handleAll_consistent 1 (by decide)
  · constructor <;> simp [xrefEntries, xrefCount, Global.paths, XrefValue.asNumber, entriesBelow]
  · simp [Trigger.AllTrue, Trigger.IsTrue, Trigger.apply, Function.update]

end Octo
