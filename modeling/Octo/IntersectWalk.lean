/-
The walk that ends an INTERSECT meets the nodes of the index two by two, so
that it finds every row that is left exactly if each has one copy.
-/
import Octo.RowLoops

namespace Octo

open GlobalTree Subscripts List Global

variable {σ : Type*} [Subscripts σ] {n uniqueId : ℕ}

section Walk

/-- Counts, each with its ids behind it. -/
structure Paired (n : ℕ) (keys : List (List σ)) : Prop where
  sorted : keys.Pairwise (· < ·)
  length : ∀ key ∈ keys, key.length = n ∨ key.length = n + 1
  closed : ∀ row v, row.length = n → row ++ [v] ∈ keys → row ∈ keys
  exists_id : ∀ row ∈ keys, row.length = n → ∃ v, row ++ [v] ∈ keys

/-- Counts, each with one id. -/
structure Alternates (n : ℕ) (keys : List (List σ)) : Prop extends Paired n keys where
  unique : ∀ row v w, row.length = n → row ++ [v] ∈ keys → row ++ [w] ∈ keys → v = w

variable {first : List σ} {tail : List (List σ)}

/-- The first key is a count, and one of its ids is the next. -/
theorem Paired.head (hkeys : Paired n (first :: tail)) :
    first.length = n ∧ ∃ v rest, tail = (first ++ [v]) :: rest := by
  obtain ⟨hfirst, htail⟩ := pairwise_cons.mp hkeys.sorted
  have hlength : first.length = n := by
    rcases hkeys.length first (by simp) with hlength | hlength
    · exact hlength
    · -- the count of a first id would come before it
      rcases eq_nil_or_concat' first with rfl | ⟨row, v, rfl⟩
      · simp at hlength
      · have hrow : row.length = n := by simpa using hlength
        rcases mem_cons.mp (hkeys.closed row v hrow (by simp)) with
          heq | hmem
        · exact absurd heq (snoc_ne_of_length rfl v)
        · exact absurd (lt_snoc row v) (hfirst row hmem).not_gt
  refine ⟨hlength, ?_⟩
  obtain ⟨v, hv⟩ := hkeys.exists_id first (by simp) hlength
  have hvtail : first ++ [v] ∈ tail := by
    rcases mem_cons.mp hv with heq | hmem
    · exact absurd heq (snoc_ne_of_length rfl v).symm
    · exact hmem
  cases tail with
  | nil => simp at hvtail
  | cons second rest =>
    obtain ⟨hsecond, _⟩ := pairwise_cons.mp htail
    have hle : ¬ first ++ [v] < second := by
      rcases mem_cons.mp hvtail with rfl | hmem
      · exact lt_irrefl _
      · exact (hsecond _ hmem).not_gt
    obtain ⟨suffix, rfl⟩ := isPrefix_of_between (hfirst second (by simp)).not_gt hle
    have hone : suffix.length = 1 := by
      rcases hkeys.length (first ++ suffix) (by simp) with hshort | hlong
      · have hnil : suffix = [] := by
          simpa [hlength] using hshort
        have hlt := hfirst (first ++ suffix) (by simp)
        simp [hnil] at hlt
      · simpa [hlength] using hlong
    obtain ⟨w, rfl⟩ := length_eq_one_iff.mp hone
    exact ⟨w, rest, rfl⟩

theorem Alternates.cons (hkeys : Alternates n (first :: tail)) : ∃ v rest, tail = (first ++ [v]) ::
    rest ∧ first.length = n ∧ Alternates n rest := by
  obtain ⟨hlength, v, rest, rfl⟩ := hkeys.toPaired.head
  obtain ⟨hfirst, htail⟩ := pairwise_cons.mp hkeys.sorted
  obtain ⟨hsecond, hrest⟩ := pairwise_cons.mp htail
  have hv : first ++ [v] ∈ first :: (first ++ [v]) :: rest := by simp
  refine ⟨v, rest, rfl, hlength, ⟨hrest, ?_, ?_, ?_⟩, ?_⟩
  · exact fun key hkey => hkeys.length key (by simp [hkey])
  · intro row w hrow hmem
    rcases mem_cons.mp (hkeys.closed row w hrow (by simp [hmem])) with
      rfl | hrowMem
    · rw [hkeys.unique row w v hrow (by simp [hmem]) hv] at hmem
      exact absurd (hsecond _ hmem) (lt_irrefl _)
    · rcases mem_cons.mp hrowMem with heq | hrowMem
      · exact absurd heq (snoc_ne_of_length (hrow.trans hlength.symm) v)
      · exact hrowMem
  · intro row hrow hrowLength
    obtain ⟨w, hw⟩ := hkeys.exists_id row (by simp [hrow]) hrowLength
    refine ⟨w, ?_⟩
    rcases mem_cons.mp hw with heq | hw
    · exact absurd heq.symm (snoc_ne_of_length (hlength.trans hrowLength.symm) w)
    · rcases mem_cons.mp hw with heq | hw
      · obtain ⟨rfl, _⟩ :=
          append_inj heq (hrowLength.trans hlength.symm)
        exact absurd (hfirst row (by simp [hrow])) (lt_irrefl _)
      · exact hw
  · intro row w u hrow hw hu
    exact hkeys.unique row w u hrow (by simp [hw]) (by simp [hu])

theorem Alternates.everyOther_eq {keys : List (List σ)} (hkeys : Alternates n keys) :
    Global.everyOther keys = keys.filter (·.length = n + 1) := by
  induction keys using Global.everyOther.induct with
  | case1 first second rest ih =>
    obtain ⟨v, tail, htail, hlength, halternates⟩ := hkeys.cons
    cases htail
    rw [Global.everyOther, ih halternates, filter_cons_of_neg, filter_cons_of_pos]
    · simp [hlength]
    · simp [hlength]
  | case2 keys hshort =>
    cases keys with
    | nil => simp [Global.everyOther]
    | cons first tail =>
      obtain ⟨v, rest, rfl, _⟩ := hkeys.cons
      exact absurd rfl (hshort first _ rest)

variable {cursor : Cursor σ}

def indexKeys (cursor : Cursor σ) : List (List σ) :=
  cursor.index.nodes.map Prod.fst

variable {key : List σ}

theorem Formed.key_cases (hformed : Formed n uniqueId cursor) (hkey : key ∈ indexKeys cursor) :
    key.length = n ∨ ∃ row id, row.length = n ∧ key = row ++ [ofNat id] ∧ cursor.Counted row := by
  obtain ⟨node, hnode, rfl⟩ := mem_map.mp hkey
  rcases hformed.index node hnode with
    hlength | ⟨row, id, hrow, _, hpath, hcounted⟩
  · exact Or.inl hlength
  · exact Or.inr ⟨row, id, hrow, hpath, hcounted⟩

theorem Formed.key_length (hformed : Formed n uniqueId cursor)
    (hkey : key ∈ indexKeys cursor) : key.length = n ∨ key.length = n + 1 := by
  rcases hformed.key_cases hkey with hlength | ⟨row, id, hrow, rfl, _⟩
  · exact Or.inl hlength
  · exact Or.inr (by simp [hrow])

theorem sorted_indexKeys (cursor : Cursor σ) : (indexKeys cursor).Pairwise (· < ·) :=
  pairwise_map.mpr cursor.index.sorted

theorem Formed.remaining_eq (hn : 0 < n) (hformed : Formed n uniqueId cursor) :
    remaining cursor = lastPieces (Global.everyOther (indexKeys cursor)) := by
  have hroot : cursor.index.get [] = none := by
    rw [get_eq_none]
    intro node hnode heq
    have := hformed.key_length (mem_map_of_mem hnode)
    simp [heq] at this
    omega
  rw [remaining, walkTwo_root _ hroot le_rfl]
  rfl

theorem Formed.paired (hformed : Formed n uniqueId cursor)
    (hexists : ∀ row, row.length = n → cursor.Counted row →
      ∃ v, cursor.Indexed row v) : Paired n (indexKeys cursor) := by
  refine ⟨sorted_indexKeys cursor, fun _ => hformed.key_length, ?_, ?_⟩
  · intro row v hrow hkey
    exact isSome_get.mp (hformed.indexed_ofNat hrow (isSome_get.mpr hkey)).1
  · intro row hkey hrow
    obtain ⟨v, hv⟩ := hexists row hrow (isSome_get.mpr hkey)
    exact ⟨v, isSome_get.mp hv⟩

section

variable (hn : 0 < n) (hformed : Formed n uniqueId cursor)
  (hexists : ∀ row, row.length = n → cursor.Counted row → ∃ v, cursor.Indexed row v)
include hn hformed hexists

/-- If each row in the index has one id, all of them are met. -/
theorem Formed.mem_remaining
    (hunique : ∀ row v w, row.length = n → cursor.Indexed row v → cursor.Indexed row w → v = w)
    (v : σ) : v ∈ remaining cursor ↔ ∃ row, row.length = n ∧ cursor.Indexed row v := by
  have halternates : Alternates n (indexKeys cursor) := by
    refine ⟨hformed.paired hexists, ?_⟩
    intro row v w hrow hv hw
    exact hunique row v w hrow (isSome_get.mpr hv) (isSome_get.mpr hw)
  rw [hformed.remaining_eq hn, halternates.everyOther_eq, lastPieces, mem_filterMap]
  constructor
  · rintro ⟨key, hkey, hlast⟩
    obtain ⟨hkey, hlength⟩ := mem_filter.mp hkey
    rcases hformed.key_cases hkey with hshort | ⟨row, id, hrow, rfl, _⟩
    · simp [hshort] at hlength
    · rw [lastPiece_ofNat] at hlast
      cases hlast
      exact ⟨row, hrow, isSome_get.mpr hkey⟩
  · rintro ⟨row, hrow, hindexed⟩
    obtain ⟨_, id, _, rfl⟩ := hformed.indexed_ofNat hrow hindexed
    refine ⟨row ++ [ofNat id], mem_filter.mpr ⟨?_, by simp [hrow]⟩, lastPiece_ofNat row id⟩
    exact isSome_get.mp hindexed

/-- The walk is too short to meet all ids if a row has two of them. -/
theorem Formed.unique_of_remaining (hone : ∀ row other v, row.length = n → other.length = n →
    cursor.Indexed row v → cursor.Indexed other v → row = other)
    (hall : ∀ row v, row.length = n → cursor.Indexed row v → v ∈ remaining cursor) :
    ∀ row v w, row.length = n → cursor.Indexed row v → cursor.Indexed row w → v = w := by
  let counts := (indexKeys cursor).filter (·.length = n)
  let ids := (indexKeys cursor).filter (·.length = n + 1)
  have hnodup : (indexKeys cursor).Nodup :=
    (sorted_indexKeys cursor).imp fun hlt => hlt.ne
  have htotal : (indexKeys cursor).length = counts.length + ids.length := by
    rw [length_eq_length_filter_add (fun key => key.length = n)]
    congr 2
    apply filter_congr
    intro key hkey
    rcases hformed.key_length hkey with hlength | hlength <;> simp [hlength]
  have hlast : ∀ key ∈ ids, ∃ row id, row.length = n ∧
      key = row ++ [ofNat id] ∧ cursor.Indexed row (ofNat id) := by
    intro key hkey
    obtain ⟨hkey, hlength⟩ := mem_filter.mp hkey
    rcases hformed.key_cases hkey with hshort | ⟨row, id, hrow, rfl, _⟩
    · simp [hshort] at hlength
    · exact ⟨row, id, hrow, rfl, isSome_get.mpr hkey⟩
  have hids : ids.length ≤ (remaining cursor).length := by
    have hinj : (ids.map List.getLast?).Nodup := by
      refine List.Nodup.map_on ?_ (hnodup.filter _)
      intro key hkey other hother heq
      obtain ⟨row, id, hrow, rfl, hindexed⟩ := hlast key hkey
      obtain ⟨row', id', hrow', rfl, hindexed'⟩ := hlast other hother
      simp only [getLast?_append, getLast?_singleton, Option.some_or, Option.some.injEq] at heq
      rw [← heq] at hindexed' ⊢
      rw [hone row row' _ hrow hrow' hindexed hindexed']
    have hsub : ids.map List.getLast? ⊆ (remaining cursor).map some := by
      intro last hmem
      obtain ⟨key, hkey, rfl⟩ := mem_map.mp hmem
      obtain ⟨row, id, hrow, rfl, hindexed⟩ := hlast key hkey
      simpa using hall row _ hrow hindexed
    simpa using (hinj.subperm hsub).length_le
  have hhalf : (remaining cursor).length ≤ (indexKeys cursor).length / 2 := by
    rw [hformed.remaining_eq hn, ← length_everyOther]
    exact length_filterMap_le _ _
  intro row v w hrow hv hw
  by_contra hne
  -- without the second id of `row` the ids still cover all counts
  have hmem : row ++ [w] ∈ ids := mem_filter.mpr ⟨isSome_get.mp hw, by simp [hrow]⟩
  have hsub : counts ⊆ (ids.erase (row ++ [w])).map List.dropLast := by
    intro key hkey
    obtain ⟨hkey, hlength⟩ := mem_filter.mp hkey
    have hlength : key.length = n := by simpa using hlength
    obtain ⟨u, hu, hkept⟩ : ∃ u, cursor.Indexed key u ∧ key ++ [u] ≠ row ++ [w] := by
      by_cases heq : key = row
      · refine ⟨v, heq ▸ hv, ?_⟩
        simp [heq, hne]
      · obtain ⟨u, hu⟩ := hexists key hlength (isSome_get.mpr hkey)
        refine ⟨u, hu, fun h => heq ?_⟩
        exact (append_inj h (hlength.trans hrow.symm)).1
    refine mem_map.mpr ⟨key ++ [u], ?_, by simp⟩
    refine (mem_erase_of_ne hkept).mpr (mem_filter.mpr ?_)
    exact ⟨isSome_get.mp hu, by simp [hlength]⟩
  have hcounts := ((hnodup.filter _).subperm hsub).length_le
  rw [length_map, length_erase_of_mem hmem] at hcounts
  have hpos := length_pos_of_mem hmem
  change counts.length ≤ ids.length - 1 at hcounts
  omega

end

end Walk

section Intersect

variable {plan : PhysicalPlan} {rows : List (List σ)} {cursor later : Cursor σ}

theorem Leaves.exists_id (hmirrors : Mirrors n uniqueId cursor)
    (hleaves : Leaves n uniqueId rows cursor later) (row : List σ) (hrow : row.length = n)
    (hcounted : later.Counted row) : ∃ v, later.Indexed row v := by
  obtain ⟨hcounted, hnot⟩ := (hleaves.counted row hrow).mp hcounted
  obtain ⟨v, hholds⟩ :=
    Cursor.mem_rows.mp ((hmirrors.counted row hrow).mp hcounted)
  exact ⟨v, (hleaves.indexed v row hrow).mpr ⟨(hmirrors.indexed v row hrow).mpr hholds, hnot⟩⟩

theorem Leaves.indexed_iff (hmirrors : Mirrors n uniqueId cursor)
    (hleaves : Leaves n uniqueId rows cursor later) {row : List σ} (hrow : row.length = n) (v : σ) :
    later.Indexed row v ↔ cursor.Holds uniqueId v row ∧ row ∉ rows := by
  rw [hleaves.indexed v row hrow, hmirrors.indexed v row hrow]

section

variable (hn : 0 < n) (hmirrors : Mirrors n uniqueId cursor)
  (hleaves : Leaves n uniqueId rows cursor later)
include hn hmirrors hleaves

variable {last : Cursor σ}

/-- If the rows to be deleted have one copy each, they are deleted. -/
theorem Leaves.deleted_rows (hcopies : ∀ row, row ∉ rows → (cursor.rows uniqueId).count row ≤ 1)
    (hdeleted : Deleted n uniqueId (remaining later) later last) :
    last.rows uniqueId = (cursor.rows uniqueId).filter (· ∈ rows) := by
  have hunique : ∀ row v w, row.length = n → later.Indexed row v → later.Indexed row w → v = w := by
    intro row v w hrow hv hw
    obtain ⟨hv, hnot⟩ := (hleaves.indexed_iff hmirrors hrow v).mp hv
    obtain ⟨hw, _⟩ := (hleaves.indexed_iff hmirrors hrow w).mp hw
    exact hmirrors.formed.holds_unique_iff.mpr (hcopies row hnot) v w hv hw
  have hremaining := hleaves.formed.mem_remaining hn (hleaves.exists_id hmirrors) hunique
  have hkept : ∀ node ∈ (later.output uniqueId).nodes, ∀ row, tableRow node = some row →
      ((∀ v ∈ remaining later, ¬ [v] <+: node.1) ↔ row ∈ rows) := by
    intro node hnode row htable
    obtain ⟨v, rfl⟩ := tableRow_eq_some htable
    have hholds : cursor.Holds uniqueId v row :=
      (hleaves.holds v row).mp (get_eq_some.mpr hnode)
    have hrow := (hmirrors.formed.holds_ofNat hholds).1
    have hgone : (∀ u ∈ remaining later, ¬ [u] <+: [v]) ↔ v ∉ remaining later := by
      simp only [cons_prefix_cons, nil_prefix, and_true]
      exact ⟨fun h hv => h v hv rfl, fun h u hu heq => h (heq ▸ hu)⟩
    rw [hgone, hremaining v]
    constructor
    · intro hnone
      by_contra hnot
      exact hnone ⟨row, hrow, (hleaves.indexed_iff hmirrors hrow v).mpr ⟨hholds, hnot⟩⟩
    · rintro hmem ⟨other, hother, hindexed⟩
      obtain ⟨hsame, hnot⟩ := (hleaves.indexed_iff hmirrors hother v).mp hindexed
      rw [hsame.row_unique hholds] at hnot
      exact hnot hmem
  rw [hdeleted.rows, ← hleaves.rows, Cursor.rows, Multiset.filter_coe,
    filterMap_filter, filter_filterMap]
  congr 1
  apply filterMap_congr
  intro node hnode
  cases htable : tableRow node with
  | none => simp
  | some row =>
    have hiff := hkept node hnode row htable
    rw [Option.filter_some]
    by_cases hmem : row ∈ rows
    · rw [if_pos (decide_eq_true (hiff.mpr hmem)), if_pos (decide_eq_true hmem)]
    · rw [if_neg (fun h => hmem (hiff.mp (of_decide_eq_true h))),
        if_neg (fun h => hmem (of_decide_eq_true h))]

/-- The rows to be deleted are only gone if they had one copy each. -/
theorem Leaves.count_le_one (hdeleted : Deleted n uniqueId (remaining later) later last)
    (hgone : ∀ row ∈ last.rows uniqueId, row ∈ rows) (row : List σ) (hnot : row ∉ rows) :
    (cursor.rows uniqueId).count row ≤ 1 := by
  have hunique := hleaves.formed.unique_of_remaining hn (hleaves.exists_id hmirrors) (by
      intro row other v hrow hother hv hv'
      exact ((hleaves.indexed_iff hmirrors hrow v).mp hv).1.row_unique
        ((hleaves.indexed_iff hmirrors hother v).mp hv').1)
    (by
      intro row v hrow hindexed
      obtain ⟨hholds, hnot⟩ := (hleaves.indexed_iff hmirrors hrow v).mp hindexed
      by_contra hmem
      refine hnot (hgone row (Cursor.mem_rows.mpr ⟨v, ?_⟩))
      exact (hdeleted.holds v row).mpr ⟨(hleaves.holds v row).mpr hholds, hmem⟩)
  refine hmirrors.formed.holds_unique_iff.mp fun v w hv hw => ?_
  have hrow := (hmirrors.formed.holds_ofNat hv).1
  exact hunique row v w hrow ((hleaves.indexed_iff hmirrors hrow v).mpr ⟨hv, hnot⟩)
    ((hleaves.indexed_iff hmirrors hrow w).mpr ⟨hw, hnot⟩)

end

end Intersect

end Octo
