/-
How an ordered SELECT moves its rows.  The loops over the node "order" copy
the rows value by value, those with an empty value last, over the first rows
that the table has from earlier arms.
-/
import Octo.SelectCode
import Mathlib.Tactic

namespace Octo

open GlobalTree NestedLoops Subscripts NullSubscripts List Global

variable {σ X : Type*} [NullSubscripts σ]

theorem ofNat_inj {id next : ℕ} : (ofNat id : σ) = ofNat next ↔ id = next :=
  ofNat_injective.eq_iff

section Fill

/-- Values that are put at successive ids. -/
def fill : Global σ (Value σ) → ℕ → List (Value σ) → Global σ (Value σ)
  | table, _, [] => table
  | table, id, value :: rest => fill (table.set [ofNat id] value) (id + 1) rest

theorem fill_append (table : Global σ (Value σ)) (id : ℕ) (left right : List (Value σ)) :
    fill table id (left ++ right) = fill (fill table id left) (id + left.length) right := by
  induction left generalizing table id with
  | nil => rfl
  | cons value left ih =>
    simp only [cons_append, fill, ih, length_cons]
    congr 1
    omega

variable {values : List (Value σ)}

theorem get_fill_of_ne {path : List σ} {table : Global σ (Value σ)} {id : ℕ}
    (hpath : ∀ i < values.length, path ≠ [ofNat (id + i)]) :
    (fill table id values).get path = table.get path := by
  induction values generalizing table id with
  | nil => rfl
  | cons value rest ih =>
    rw [fill, ih]
    · exact get_set_ne _ _ (by simpa using hpath 0 (by simp))
    · intro i hi
      have hne := hpath (i + 1) (by simpa using hi)
      rwa [show id + (i + 1) = id + 1 + i by omega] at hne

theorem get_fill (table : Global σ (Value σ)) (id : ℕ) {i : ℕ} (hi : i < values.length) :
    (fill table id values).get [ofNat (id + i)] = some values[i] := by
  induction values generalizing table id i with
  | nil => simp at hi
  | cons value rest ih =>
    rw [fill]
    cases i with
    | zero =>
      rw [get_fill_of_ne]
      · simpa using get_set_self table [ofNat id] value
      · intro j _ heq
        simp only [cons.injEq, ofNat_inj, and_true] at heq
        omega
    | succ i =>
      have hget := ih (table.set [ofNat id] value) (id + 1) (by simpa using hi : i < rest.length)
      rwa [show id + 1 + i = id + (i + 1) by omega] at hget

/-- Nothing below the node "order" changes. -/
theorem get_fill_order (table : Global σ (Value σ)) (id : ℕ) (values : List (Value σ))
    (path : List σ) : (fill table id values).get (orderName :: path) =
    table.get (orderName :: path) := by
  apply get_fill_of_ne
  intro i _ heq
  exact orderName_ne_ofNat _ (cons.inj heq).1

end Fill

/-- The rows that stand below the node "order". -/
def Below (table : Global σ (Value σ)) (picked : List (Picked σ)) (base : ℕ) : Prop :=
  ∀ path value, table.get (orderName :: path) = some value ↔ ∃ i row, picked[i]? = some row ∧
    path = [row.value, ofNat (base + i + 1)] ∧ value = .row row.columns

section Copy

variable {table : Global σ (Value σ)} {picked : List (Picked σ)} {base : ℕ}

theorem Below.fill (hbelow : Below table picked base) (id : ℕ)
    (values : List (Value σ)) : Below (fill table id values) picked base := by
  intro path value
  rw [get_fill_order]
  exact hbelow path value

/-- The rows with a value, by their ids. -/
def group (picked : List (Picked σ)) (base : ℕ) (value : σ) : List (σ × Value σ) :=
  (picked.zipIdx.filter fun row => row.1.value = value).map fun row =>
    (ofNat (base + row.2 + 1), .row row.1.columns)

variable {after i1 value : σ} {g : Global σ (Value σ)}

theorem mem_group {node : σ × Value σ} :
    node ∈ group picked base value ↔ ∃ i row, picked[i]? = some row ∧ row.value = value ∧
    node = (ofNat (base + i + 1), .row row.columns) := by
  simp only [group, mem_map, mem_filter, decide_eq_true_eq, Prod.exists, mem_zipIdx_iff_getElem?]
  constructor
  · rintro ⟨row, i, ⟨hrow, hvalue⟩, rfl⟩
    exact ⟨i, row, hrow, hvalue, rfl⟩
  · rintro ⟨i, row, hrow, hvalue, rfl⟩
    exact ⟨row, i, ⟨hrow, hvalue⟩, rfl⟩

theorem group_values (picked : List (Picked σ)) (base : ℕ) (value : σ) :
    (group picked base value).map Prod.snd = (picked.filter fun row => row.value = value).map
    fun row => .row row.columns := by
  have hfst : picked.zipIdx.map Prod.fst = picked := by simp
  conv_rhs => rw [← hfst]
  rw [group, map_map, filter_map, map_map]
  rfl

theorem group_sorted (picked : List (Picked σ)) (base : ℕ) (value : σ) :
    ((group picked base value).map Prod.fst).Pairwise (· < ·) := by
  have hidx : picked.zipIdx.Pairwise fun first second =>
      first.2 < second.2 := by
    have hsnd : (picked.zipIdx.map Prod.snd).Pairwise (· < ·) := by
      simpa using pairwise_lt_range' (s := 0) (n := picked.length)
    exact pairwise_map.mp hsnd
  rw [group, map_map, pairwise_map]
  refine (hidx.filter _).imp ?_
  intro first second hlt
  exact ofNat_lt (by omega)

/-- The subscripts below a value are the ids of its rows. -/
theorem Below.hasData_id_iff (hbelow : Below table picked base) {id : σ} : table.HasData [orderName,
    value, id] ↔ id ∈ (group picked base value).map Prod.fst := by
  rw [hasData_iff_paths, mem_map]
  constructor
  · rintro ⟨other, hother, rest, rfl⟩
    obtain ⟨found, hfound⟩ :=
      Option.isSome_iff_exists.mp (mem_paths.mp hother)
    obtain ⟨i, row, hrow, hpath, hvalue⟩ :=
      (hbelow ([value, id] ++ rest) found).mp hfound
    simp only [cons_append, nil_append, cons.injEq] at hpath
    refine ⟨(id, found), mem_group.mpr ⟨i, row, hrow, hpath.1.symm, ?_⟩, rfl⟩
    rw [hpath.2.1, hvalue]
  · rintro ⟨⟨found, text⟩, hnode, rfl⟩
    obtain ⟨i, row, hrow, rfl, heq⟩ := mem_group.mp hnode
    refine ⟨[orderName, row.value, found], mem_paths.mpr ?_, prefix_rfl⟩
    rw [(hbelow [row.value, found] text).mpr ⟨i, row, hrow, ?_, ?_⟩]
    · rfl
    · rw [(Prod.mk.inj heq).1]
    · exact (Prod.mk.inj heq).2

/-- The subscripts below "order" are the values. -/
theorem Below.hasData_value_iff (hbelow : Below table picked base) : table.HasData [orderName,
    value] ↔ value ∈ picked.map Picked.value := by
  rw [hasData_iff_paths, mem_map]
  constructor
  · rintro ⟨other, hother, rest, rfl⟩
    obtain ⟨found, hfound⟩ :=
      Option.isSome_iff_exists.mp (mem_paths.mp hother)
    obtain ⟨i, row, hrow, hpath, _⟩ :=
      (hbelow ([value] ++ rest) found).mp hfound
    simp only [cons_append, nil_append, cons.injEq] at hpath
    exact ⟨row, mem_of_getElem? hrow, hpath.1.symm⟩
  · rintro ⟨row, hrow, rfl⟩
    obtain ⟨i, hi⟩ := getElem?_of_mem hrow
    refine ⟨[orderName, row.value, ofNat (base + i + 1)],
      mem_paths.mpr ?_, ⟨[ofNat (base + i + 1)], rfl⟩⟩
    rw [(hbelow [row.value, ofNat (base + i + 1)] _).mpr ⟨i, row, hi, rfl, rfl⟩]
    rfl

/-- `$ORDER` gives the least of the subscripts that are left. -/
theorem order_eq_head? {path : List σ} {left : List σ} (hsorted : left.Pairwise (· < ·))
    (hleft : ∀ sub, g.Follows path (some after) sub ↔ sub ∈ left) :
    g.order path (some after) = left.head? := by
  cases left with
  | nil =>
    rw [head?_nil, order_eq_none_iff]
    intro sub hsub
    exact not_mem_nil ((hleft sub).mp hsub)
  | cons first rest =>
    rw [head?_cons, order_eq_some_iff]
    refine ⟨(hleft first).mpr (by simp), ?_⟩
    intro next hnext
    rcases mem_cons.mp ((hleft next).mp hnext) with rfl | hmem
    · exact le_refl _
    · exact ((pairwise_cons.mp hsorted).1 next hmem).le

/-- After the first of the subscripts that are left the others are left. -/
theorem follows_tail {path : List σ} {first : σ} {rest : List σ}
    (hsorted : (first :: rest).Pairwise (· < ·))
    (hleft : ∀ sub, g.Follows path (some after) sub ↔ sub ∈ first :: rest)
    (sub : σ) : g.Follows path (some first) sub ↔ sub ∈ rest := by
  have hfirst := (hleft first).mpr (by simp)
  constructor
  · intro hsub
    have hlt : first < sub := hsub.2 first rfl
    have hmem := (hleft sub).mp ⟨hsub.1, fun last hlast =>
      (hfirst.2 last hlast).trans hlt⟩
    rcases mem_cons.mp hmem with rfl | hmem
    · exact absurd hlt (lt_irrefl _)
    · exact hmem
  · intro hmem
    refine ⟨((hleft sub).mpr (mem_cons_of_mem _ hmem)).1, ?_⟩
    intro last hlast
    rw [← Option.some.inj hlast]
    exact (pairwise_cons.mp hsorted).1 sub hmem

theorem copyRows_spec {nodes : List (σ × Value σ)} {fuel : ℕ} {i3 : σ} (i0 : ℕ)
    (hsorted : (nodes.map Prod.fst).Pairwise (· < ·))
    (hleft : ∀ sub, table.Follows [orderName, i1] (some i3) sub ↔ sub ∈ nodes.map Prod.fst)
    (hget : ∀ node ∈ nodes, table.get [orderName, i1, node.1] = some node.2)
    (hfuel : nodes.length < fuel) : copyRows i1 fuel i3 (table, i0) =
    some (fill table i0 (nodes.map Prod.snd), i0 + nodes.length) := by
  induction nodes generalizing table fuel i3 i0 with
  | nil =>
    obtain ⟨fuel, rfl⟩ := Nat.exists_eq_succ_of_ne_zero (Nat.ne_of_gt hfuel)
    rw [copyRows, order_eq_head? hsorted hleft]
    rfl
  | cons node rest ih =>
    obtain ⟨fuel, rfl⟩ :=
      Nat.exists_eq_succ_of_ne_zero (Nat.ne_of_gt (Nat.zero_lt_of_lt hfuel))
    have hcopy : ∀ path, (table.set [ofNat i0] node.2).get
        (orderName :: path) = table.get (orderName :: path) :=
      get_fill_order table i0 [node.2]
    have hfollows : ∀ after sub, (table.set [ofNat i0] node.2).Follows [orderName, i1] after sub ↔
        table.Follows [orderName, i1] after sub := by
      intro after sub
      refine and_congr_left fun _ => ?_
      rw [hasData_iff_paths, hasData_iff_paths]
      constructor
      all_goals
        rintro ⟨other, hother, tail, rfl⟩
        refine ⟨_, ?_, tail, rfl⟩
        rw [mem_paths] at hother ⊢
        simpa only [cons_append, hcopy] using hother
    rw [copyRows, order_eq_head? hsorted hleft]
    simp only [map_cons, head?_cons, hget node (by simp), Option.bind_eq_bind, Option.bind_some]
    rw [ih (i0 + 1) (pairwise_cons.mp hsorted).2]
    · simp only [fill, length_cons, Option.some.injEq, Prod.mk.injEq, true_and]
      omega
    · intro sub
      rw [hfollows]
      exact follows_tail hsorted hleft sub
    · intro other hother
      rw [hcopy]
      exact hget other (mem_cons_of_mem _ hother)
    · simpa using hfuel

/-- The loop over the rows of a value. -/
theorem Below.copyRows (hbelow : Below table picked base) (i1 : σ)
    (i0 : ℕ) : copyRows i1 (table.nodes.length + 1) null (table, i0) =
      some (Octo.fill table i0 ((group picked base i1).map Prod.snd),
        i0 + (group picked base i1).length) := by
  have hids : ∀ sub, table.Follows [orderName, i1] (some null) sub ↔
      sub ∈ (group picked base i1).map Prod.fst := by
    intro sub
    rw [← hbelow.hasData_id_iff]
    refine ⟨And.left, fun hdata => ⟨hdata, ?_⟩⟩
    intro last hlast
    rw [← Option.some.inj hlast]
    obtain ⟨node, hnode, rfl⟩ :=
      mem_map.mp (hbelow.hasData_id_iff.mp hdata)
    obtain ⟨i, row, _, _, rfl⟩ := mem_group.mp hnode
    exact null_lt_ofNat _
  have hlength : (group picked base i1).length ≤ table.nodes.length := by
    have hnodup : ((group picked base i1).map Prod.fst).Nodup :=
      (group_sorted picked base i1).imp fun hlt => hlt.ne
    have hsubset : (group picked base i1).map Prod.fst ⊆ table.children [orderName, i1] := by
      intro sub hsub
      exact mem_children.mpr (hbelow.hasData_id_iff.mpr hsub)
    calc (group picked base i1).length = ((group picked base i1).map Prod.fst).length := by simp
      _ ≤ (table.children [orderName, i1]).length :=
          (subperm_of_subset hnodup hsubset).length_le
      _ ≤ table.nodes.length := length_filterMap_le _ _
  apply copyRows_spec i0 (group_sorted picked base i1) hids
  · intro node hnode
    obtain ⟨i, row, hrow, rfl, rfl⟩ := mem_group.mp hnode
    exact (hbelow _ _).mpr ⟨i, row, hrow, rfl, rfl⟩
  · omega

def texts (picked : List (Picked σ)) : List (Value σ) :=
  picked.map fun row => .row row.columns

def rowsOf (picked : List (Picked σ)) (values : List σ) : List (Picked σ) :=
  values.flatMap fun value => picked.filter fun row => row.value = value

theorem Below.copyValues (hbelow : Below table picked base) {values : List σ}
    (hsorted : values.Pairwise (· < ·))
    (hleft : ∀ value, table.Follows [orderName] (some i1) value ↔ value ∈ values) {fuel : ℕ}
    (hfuel : values.length < fuel) (i0 : ℕ) : ∃ next, copyValues fuel i1 (table, i0) =
    some (Octo.fill table i0 (texts (rowsOf picked (values ++
        if null ∈ picked.map Picked.value then [null] else []))), next) := by
  induction values generalizing table i1 fuel i0 with
  | nil =>
    obtain ⟨fuel, rfl⟩ := Nat.exists_eq_succ_of_ne_zero (Nat.ne_of_gt hfuel)
    have horder : table.order [orderName] (some i1) = none :=
      order_eq_head? hsorted hleft
    simp only [Octo.copyValues, horder, Option.getD_none, nil_append, ↓reduceIte]
    by_cases hnull : null ∈ picked.map Picked.value
    · have hdata := data_ne_zero.mpr (hbelow.hasData_value_iff.mpr hnull)
      refine ⟨i0 + (group picked base null).length, ?_⟩
      rw [if_neg hdata, if_pos hnull, hbelow.copyRows, group_values]
      simp [rowsOf, texts]
    · have hdata : table.data [orderName, null] = 0 := by
        by_contra hne
        exact hnull (hbelow.hasData_value_iff.mp (data_ne_zero.mp hne))
      rw [if_pos hdata, if_neg hnull]
      exact ⟨i0, rfl⟩
  | cons value rest ih =>
    obtain ⟨fuel, rfl⟩ :=
      Nat.exists_eq_succ_of_ne_zero (Nat.ne_of_gt (Nat.zero_lt_of_lt hfuel))
    have hvalue := (hleft value).mpr (by simp)
    have hdata : table.data [orderName, value] ≠ 0 :=
      data_ne_zero.mpr hvalue.1
    have hne : value ≠ null := by
      rintro rfl
      exact (null_le i1).not_gt (hvalue.2 i1 rfl)
    have horder : table.order [orderName] (some i1) = some value :=
      order_eq_head? hsorted hleft
    have hlater := hbelow.fill i0 ((group picked base value).map Prod.snd)
    have hrest : ∀ other, (Octo.fill table i0
        ((group picked base value).map Prod.snd)).Follows [orderName]
          (some value) other ↔ other ∈ rest := by
      intro other
      rw [← follows_tail hsorted hleft other]
      refine and_congr_left fun _ => ?_
      exact hlater.hasData_value_iff.trans hbelow.hasData_value_iff.symm
    obtain ⟨next, hnext⟩ := ih hlater (pairwise_cons.mp hsorted).2 hrest
      (by simpa using hfuel : rest.length < fuel) (i0 + (group picked base value).length)
    simp only [Octo.copyValues, horder, Option.getD_some]
    rw [if_neg hdata, hbelow.copyRows]
    simp only [Option.bind_eq_bind, Option.bind_some, if_neg hne]
    refine ⟨next, ?_⟩
    rw [hnext]
    have hlength : (group picked base value).length =
        ((group picked base value).map Prod.snd).length := by simp
    rw [hlength, ← fill_append, group_values]
    simp [rowsOf, texts]

/-- The rows below "order" go to the ids from 1 on. -/
theorem Below.orderRows (hbelow : Below table picked base) :
    orderRows table = some ((Octo.fill table 1 (texts (copied picked))).kill [orderName]) := by
  have hleft : ∀ value, table.Follows [orderName] (some null) value ↔
      value ∈ (((picked.map Picked.value).filter (· ≠ null)).toFinset.sort (· ≤ ·)) := by
    intro value
    rw [Finset.mem_sort, mem_toFinset, mem_filter]
    have hlt : (∀ last ∈ some (null : σ), last < value) ↔ value ≠ null := by
      constructor
      · exact fun hlast => (hlast null rfl).ne'
      · rintro hne last hlast
        rw [← Option.some.inj hlast]
        exact lt_of_le_of_ne (null_le value) hne.symm
    rw [Global.Follows, hlt]
    exact and_congr hbelow.hasData_value_iff (by simp)
  have hlength : (((picked.map Picked.value).filter
      (· ≠ null)).toFinset.sort (· ≤ ·)).length < table.nodes.length + 1 := by
    have hsubset : (((picked.map Picked.value).filter
        (· ≠ null)).toFinset.sort (· ≤ ·)) ⊆ table.children [orderName] := by
      intro value hvalue
      exact mem_children.mpr ((hleft value).mpr hvalue).1
    have hle := (subperm_of_subset (Finset.sort_nodup _ _) hsubset).length_le
    have hchildren : (table.children [orderName]).length ≤
        table.nodes.length := length_filterMap_le _ _
    omega
  obtain ⟨next, hnext⟩ := hbelow.copyValues (Finset.sortedLT_sort _).pairwise hleft hlength 1
  rw [Octo.orderRows, hnext]
  rfl

end Copy

/-- A table with the given rows under successive ids, and beside them rows
below "order" with the ids after `base`.  The counter stands at the root. -/
structure TableIs (table : Global σ (Value σ)) (count : ℕ)
    (listed : List (List σ)) (staged : List (Picked σ)) (base : ℕ) : Prop where
  root : Value.asNumber (table.get []) = count
  get_iff : ∀ path value, path ≠ [] → (table.get path = some value ↔
    (∃ i row, listed[i]? = some row ∧ path = [ofNat (i + 1)] ∧ value = .row row) ∨
    ∃ i row, staged[i]? = some row ∧ path = [orderName, row.value, ofNat (base + i + 1)] ∧
    value = .row row.columns)

/-- A table that has the given rows, under the ids from 1 on, and no other
nodes below its root. -/
def Filled (table : Global σ (Value σ)) (rows : List (List σ)) : Prop :=
  ∀ path value, path ≠ [] → (table.get path = some value ↔
    ∃ i row, rows[i]? = some row ∧ path = [ofNat (i + 1)] ∧ value = .row row)

section Tables

variable {table : Global σ (Value σ)} {count base : ℕ}
  {listed rows : List (List σ)} {staged : List (Picked σ)}

theorem TableIs.filled (htable : TableIs table count listed [] base) : Filled table listed := by
  intro path value hpath
  rw [htable.get_iff path value hpath]
  simp

/-- A table has its rows in one way. -/
theorem Filled.unique {other : List (List σ)} (hrows : Filled table rows)
    (hother : Filled table other) : rows = other := by
  apply ext_getElem?
  intro i
  apply Option.ext
  intro row
  have hget : ∀ {list : List (List σ)}, Filled table list →
      (list[i]? = some row ↔ table.get [ofNat (i + 1)] = some (.row row)) := by
    intro list hlist
    rw [hlist _ _ (by simp)]
    constructor
    · exact fun hrow => ⟨i, row, hrow, rfl, rfl⟩
    · rintro ⟨j, found, hfound, hpath, hvalue⟩
      simp only [cons.injEq, ofNat_inj, and_true, Nat.add_right_cancel_iff] at hpath
      rw [hpath, Value.row.inj hvalue]
      exact hfound
  rw [hget hrows, hget hother]

theorem tableIs_kill (table : Global σ (Value σ)) : TableIs (table.kill []) 0 [] [] 0 := by
  constructor
  · simp [get_kill, Value.asNumber]
  · intro path value _
    simp [get_kill]

theorem TableIs.below (htable : TableIs table count listed staged base) :
    Below table staged base := by
  intro path value
  rw [htable.get_iff _ _ (by simp)]
  constructor
  · rintro (⟨i, row, _, hpath, _⟩ | ⟨i, row, hrow, hpath, hvalue⟩)
    · exact absurd (cons.inj hpath).1 (orderName_ne_ofNat _)
    · exact ⟨i, row, hrow, (cons.inj hpath).2, hvalue⟩
  · rintro ⟨i, row, hrow, rfl, hvalue⟩
    exact Or.inr ⟨i, row, hrow, rfl, hvalue⟩

theorem exists_getElem?_snoc {α : Type*} {list : List α} {last : α} {P : ℕ → α → Prop} :
    (∃ i found, (list ++ [last])[i]? = some found ∧ P i found) ↔
    (∃ i found, list[i]? = some found ∧ P i found) ∨ P list.length last := by
  constructor
  · rintro ⟨i, found, hfound, hP⟩
    by_cases hi : i < list.length
    · rw [getElem?_append_left hi] at hfound
      exact Or.inl ⟨i, found, hfound, hP⟩
    · obtain ⟨hlength, hlast⟩ := List.getElem?_eq_some_iff.mp hfound
      obtain rfl : i = list.length := by
        simp only [length_append, length_singleton] at hlength
        omega
      have hlast : last = found := by simpa using hlast
      exact Or.inr (hlast ▸ hP)
  · rintro (⟨i, found, hfound, hP⟩ | hP)
    · have hi := (List.getElem?_eq_some_iff.mp hfound).1
      exact ⟨i, found, by rw [getElem?_append_left hi, hfound], hP⟩
    · exact ⟨list.length, last, by simp, hP⟩

/-- A row at a new node. -/
theorem get_increment_set {path other : List σ} {columns : List σ} (hpath : path ≠ [])
    (hnone : table.get path = none) (hother : other ≠ []) (value : Value σ) :
    ((increment table []).set path
    (Value.append ((increment table []).get path) columns)).get other = some value ↔
    table.get other = some value ∨ other = path ∧ value = .row columns := by
  have hget : ∀ node, node ≠ [] → (increment table []).get node = table.get node := by
    intro node hnode
    rw [increment, get_set_ne _ _ hnode]
  by_cases heq : other = path
  · subst heq
    rw [get_set_self, hget _ hpath, hnone]
    simp [Value.append, eq_comm]
  · rw [get_set_ne _ _ heq, hget _ hother]
    simp [heq]

theorem asNumber_increment_set {path : List σ} (hpath : path ≠ []) (value : Value σ) :
    Value.asNumber (((increment table []).set path value).get []) =
    Value.asNumber (table.get []) + 1 := by
  rw [get_set_ne _ _ hpath.symm, increment, get_set_self]
  rfl

/-- A row gets the next id. -/
theorem TableIs.list (columns : List σ) (htable : TableIs table listed.length listed [] base) :
    TableIs ((increment table []).set [ofNat (listed.length + 1)]
    (Value.append ((increment table []).get [ofNat (listed.length + 1)]) columns))
    (listed.length + 1) (listed ++ [columns]) [] base := by
  have hnone : table.get [ofNat (listed.length + 1)] = none := by
    apply Option.eq_none_iff_forall_ne_some.mpr
    intro value hvalue
    obtain ⟨i, row, hrow, hpath, _⟩ := (htable.filled _ _ (by simp)).mp hvalue
    have hi := (List.getElem?_eq_some_iff.mp hrow).1
    simp only [cons.injEq, ofNat_inj, and_true] at hpath
    omega
  constructor
  · rw [asNumber_increment_set (by simp), htable.root]
  · intro path value hpath
    rw [get_increment_set (by simp) hnone hpath, htable.get_iff _ _ hpath, exists_getElem?_snoc]
    exact or_right_comm

/-- A row goes below "order". -/
theorem TableIs.stage (row : Picked σ)
    (htable : TableIs table (base + staged.length) listed staged base) :
    TableIs ((increment table []).set [orderName, row.value, ofNat (base + staged.length + 1)]
    (Value.append ((increment table []).get
    [orderName, row.value, ofNat (base + staged.length + 1)]) row.columns))
    (base + staged.length + 1) listed (staged ++ [row]) base := by
  have hnone : table.get [orderName, row.value, ofNat (base + staged.length + 1)] = none := by
    apply Option.eq_none_iff_forall_ne_some.mpr
    intro value hvalue
    obtain ⟨i, found, hfound, hpath, _⟩ := (htable.below _ _).mp hvalue
    have hi := (List.getElem?_eq_some_iff.mp hfound).1
    simp only [cons.injEq, ofNat_inj, and_true] at hpath
    omega
  constructor
  · rw [asNumber_increment_set (by simp), htable.root]
  · intro path value hpath
    rw [get_increment_set (by simp) hnone hpath, htable.get_iff _ _ hpath, exists_getElem?_snoc]
    exact or_assoc

theorem getElem?_overlay {α : Type*} (new old : List α) (i : ℕ) :
    (overlay new old)[i]? = if i < new.length then new[i]? else old[i]? := by
  unfold overlay
  split_ifs with hi
  · exact getElem?_append_left hi
  · rw [getElem?_append_right (by omega), getElem?_drop]
    congr 1
    omega

theorem map_overlay {α β : Type*} (f : α → β) (new old : List α) :
    (overlay new old).map f = overlay (new.map f) (old.map f) := by
  simp [overlay]

/-- The rows below "order" are written over the first ones. -/
theorem TableIs.orderRows (htable : TableIs table count listed staged base) :
    ∃ later, orderRows table = some later ∧ TableIs later count
      (overlay ((copied staged).map Picked.columns) listed) [] 0 := by
  refine ⟨_, htable.below.orderRows, ?_, ?_⟩
  · rw [get_kill, if_neg (by simp), get_fill_of_ne (by simp), htable.root]
  · intro path value hpath
    rw [get_kill]
    by_cases horder : [orderName] <+: path
    · obtain ⟨tail, rfl⟩ := horder
      rw [if_pos ⟨tail, rfl⟩]
      simp only [reduceCtorEq, getElem?_nil, false_and, exists_false,
        or_false, false_iff, not_exists, not_and]
      intro i row _ heq
      exact absurd (cons.inj heq).1 (orderName_ne_ofNat _)
    · rw [if_neg horder]
      by_cases hid : ∃ i < (texts (copied staged)).length, path = [ofNat (1 + i)]
      · obtain ⟨i, hi, rfl⟩ := hid
        have hlength : i < (copied staged).length := by simpa [texts] using hi
        rw [get_fill table 1 hi]
        simp only [texts, getElem_map, Option.some.injEq,
          getElem?_nil, reduceCtorEq, false_and, exists_false, or_false]
        constructor
        · rintro rfl
          refine ⟨i, (copied staged)[i].columns, ?_, by rw [Nat.add_comm], rfl⟩
          rw [getElem?_overlay, if_pos (by simpa using hlength)]
          simp [hlength]
        · rintro ⟨j, row, hrow, heq, rfl⟩
          simp only [cons.injEq, ofNat_inj, and_true] at heq
          obtain rfl : i = j := by omega
          rw [getElem?_overlay, if_pos (by simpa using hlength)] at hrow
          simpa [hlength] using hrow
      · simp only [not_exists, not_and] at hid
        rw [get_fill_of_ne hid, htable.get_iff path value hpath]
        simp only [getElem?_nil, reduceCtorEq, false_and, exists_false, or_false]
        constructor
        · rintro (⟨i, row, hrow, heq, hvalue⟩ | ⟨i, row, _, rfl, _⟩)
          · refine ⟨i, row, ?_, heq, hvalue⟩
            rw [getElem?_overlay, if_neg, hrow]
            intro hi
            exact hid i (by simpa [texts] using hi) (by rw [heq, Nat.add_comm])
          · exact absurd ⟨_, rfl⟩ horder
        · rintro ⟨i, row, hrow, heq, hvalue⟩
          refine Or.inl ⟨i, row, ?_, heq, hvalue⟩
          rwa [getElem?_overlay, if_neg] at hrow
          intro hi
          exact hid i (by simpa [texts] using hi) (by rw [heq, Nat.add_comm])

end Tables

end Octo
