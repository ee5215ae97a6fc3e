/-
Hierarchical stores of the M language.  A node is named by its subscripts and
may have a value, descendants, or both.  Nodes are kept in collating order: a
node comes before its descendants, and siblings in the order of their
subscripts.
-/
import Mathlib.Data.List.Lex
import Mathlib.Data.List.Nodup
import Mathlib.Order.Lattice

namespace GlobalTree

open List

/-- The nodes that have a value, in collating order. -/
structure Global (σ V : Type*) [LinearOrder σ] where
  nodes : List (List σ × V)
  sorted : nodes.Pairwise fun first second => first.1 < second.1

namespace Global

variable {σ V : Type*} [LinearOrder σ]

def empty : Global σ V := ⟨[], List.Pairwise.nil⟩

def get (g : Global σ V) (path : List σ) : Option V :=
  (g.nodes.find? fun node => node.1 = path).map Prod.snd

def set (g : Global σ V) (path : List σ) (value : V) : Global σ V where
  nodes := g.nodes.filter (·.1 < path) ++ (path, value) :: g.nodes.filter (path < ·.1)
  sorted := by
    refine pairwise_append.mpr ⟨g.sorted.filter _, pairwise_cons.mpr ⟨?_, g.sorted.filter _⟩, ?_⟩
    · intro node hnode
      simpa using (mem_filter.mp hnode).2
    · intro first hfirst second hsecond
      have hlt : first.1 < path := by simpa using (mem_filter.mp hfirst).2
      rcases mem_cons.mp hsecond with rfl | hsecond
      · exact hlt
      · exact hlt.trans (by simpa using (mem_filter.mp hsecond).2)

/-- `KILL`: the node and its descendants go. -/
def kill (g : Global σ V) (path : List σ) : Global σ V where
  nodes := g.nodes.filter fun node => ¬ path <+: node.1
  sorted := g.sorted.filter _

/-- `$DATA`: 1 for a value, 10 for descendants. -/
def data (g : Global σ V) (path : List σ) : Nat :=
  (if (g.get path).isSome then 1 else 0) +
    if g.nodes.any fun node => path <+: node.1 ∧ path ≠ node.1 then 10 else 0

/-- The subscripts that stand below a node. -/
def children (g : Global σ V) (path : List σ) : List σ :=
  g.nodes.filterMap fun node =>
    if path <+: node.1 then node.1[path.length]? else none

/-- `$ORDER`: the next subscript below a node; `none` stands for the empty
subscript. -/
def order (g : Global σ V) (path : List σ) (after : Option σ) : Option σ :=
  (g.children path).find? fun subscript => after.all (· < subscript)

/-- `$QUERY`: the next node that has a value. -/
def query (g : Global σ V) (path : List σ) : Option (List σ) :=
  (g.nodes.find? (path < ·.1)).map Prod.fst

/-- Every node below `path` has a value of its own or leads to one. -/
def HasData (g : Global σ V) (path : List σ) : Prop :=
  ∃ node ∈ g.nodes, path <+: node.1

@[simp] theorem nodes_empty : (empty : Global σ V).nodes = [] := rfl

variable {g : Global σ V} {other path : List σ} {value : V}

theorem mem_set {node : List σ × V} : node ∈ (g.set path value).nodes ↔
      node = (path, value) ∨ node ∈ g.nodes ∧ node.1 ≠ path := by
  simp only [set, mem_append, mem_filter, mem_cons,
    decide_eq_true_eq]
  constructor
  · rintro (⟨hmem, hlt⟩ | heq | ⟨hmem, hlt⟩)
    · exact .inr ⟨hmem, hlt.ne⟩
    · exact .inl heq
    · exact .inr ⟨hmem, hlt.ne'⟩
  · rintro (heq | ⟨hmem, hne⟩)
    · exact .inr (.inl heq)
    · rcases lt_or_gt_of_ne hne with hlt | hlt
      · exact .inl ⟨hmem, hlt⟩
      · exact .inr (.inr ⟨hmem, hlt⟩)

theorem mem_kill {node : List σ × V} :
    node ∈ (g.kill path).nodes ↔ node ∈ g.nodes ∧ ¬ path <+: node.1 := by
  simp [kill]

/-- A node has one value. -/
theorem eq_of_mem {first second : V}
    (hfirst : (path, first) ∈ g.nodes) (hsecond : (path, second) ∈ g.nodes) :
    first = second := by
  have hnodup : (g.nodes.map Prod.fst).Nodup :=
    pairwise_map.mpr (g.sorted.imp fun hlt => hlt.ne)
  exact congrArg Prod.snd (inj_on_of_nodup_map hnodup hfirst hsecond rfl)

theorem get_eq_some : g.get path = some value ↔ (path, value) ∈ g.nodes := by
  constructor
  · intro hget
    obtain ⟨⟨key, found⟩, hfind, rfl⟩ := Option.map_eq_some_iff.mp hget
    have hkey : key = path := by simpa using find?_some hfind
    subst hkey
    exact mem_of_find?_eq_some hfind
  · intro hmem
    unfold get
    cases hfind : g.nodes.find? fun node => node.1 = path with
    | none =>
      have := find?_eq_none.mp hfind _ hmem
      simp at this
    | some node =>
      obtain ⟨key, found⟩ := node
      have hkey : key = path := by simpa using find?_some hfind
      subst hkey
      exact congrArg some (eq_of_mem (mem_of_find?_eq_some hfind) hmem)

theorem get_eq_none : g.get path = none ↔ ∀ node ∈ g.nodes, node.1 ≠ path := by
  simp [get]

theorem isSome_get : (g.get path).isSome ↔ path ∈ g.nodes.map Prod.fst := by
  rw [Option.isSome_iff_exists, mem_map]
  constructor
  · rintro ⟨value, hvalue⟩
    exact ⟨_, get_eq_some.mp hvalue, rfl⟩
  · rintro ⟨⟨key, value⟩, hmem, rfl⟩
    exact ⟨value, get_eq_some.mpr hmem⟩

@[simp] theorem get_empty (path : List σ) : (empty : Global σ V).get path = none := rfl

theorem get_set_self (g : Global σ V) (path : List σ) (value : V) :
    (g.set path value).get path = some value :=
  get_eq_some.mpr (mem_set.mpr (.inl rfl))

theorem get_set_ne (g : Global σ V) (value : V)
    (hne : other ≠ path) : (g.set path value).get other = g.get other := by
  apply Option.ext
  intro found
  rw [get_eq_some, get_eq_some, mem_set]
  simp [hne]

theorem get_kill (g : Global σ V) (path other : List σ) :
    (g.kill path).get other = if path <+: other then none else g.get other := by
  apply Option.ext
  intro found
  split_ifs with hpath
  · simp [get_eq_some, mem_kill, hpath]
  · rw [get_eq_some, get_eq_some, mem_kill]
    simp [hpath]

theorem data_ne_zero : g.data path ≠ 0 ↔ g.HasData path := by
  unfold data HasData
  constructor
  · intro hdata
    by_cases hget : (g.get path).isSome
    · obtain ⟨value, hvalue⟩ := Option.isSome_iff_exists.mp hget
      exact ⟨_, get_eq_some.mp hvalue, prefix_rfl⟩
    · simp only [hget, Bool.false_eq_true, ↓reduceIte, Nat.zero_add, ne_eq, ite_eq_right_iff,
        any_eq_true, decide_eq_true_eq, Classical.not_imp] at hdata
      obtain ⟨⟨node, hmem, hpath, _⟩, _⟩ := hdata
      exact ⟨node, hmem, hpath⟩
  · rintro ⟨⟨key, value⟩, hmem, hpath⟩
    by_cases hkey : path = key
    · subst hkey
      simp [get_eq_some.mpr hmem]
    · have hbelow : g.nodes.any (fun node => path <+: node.1 ∧ path ≠ node.1) =
          true := any_eq_true.mpr ⟨_, hmem, by simp [hpath, hkey]⟩
      rw [if_pos hbelow]
      omega

theorem hasData_set : (g.set path value).HasData other ↔ other <+: path ∨ g.HasData other := by
  constructor
  · rintro ⟨node, hnode, hpre⟩
    rcases mem_set.mp hnode with rfl | ⟨hmem, _⟩
    · exact .inl hpre
    · exact .inr ⟨node, hmem, hpre⟩
  · rintro (hpre | ⟨node, hmem, hpre⟩)
    · exact ⟨_, mem_set.mpr (.inl rfl), hpre⟩
    · by_cases hpath : node.1 = path
      · exact ⟨_, mem_set.mpr (.inl rfl), hpath ▸ hpre⟩
      · exact ⟨node, mem_set.mpr (.inr ⟨hmem, hpath⟩), hpre⟩

theorem HasData.shorten (hdata : g.HasData other) (hpre : path <+: other) : g.HasData path := by
  obtain ⟨node, hmem, hother⟩ := hdata
  exact ⟨node, hmem, hpre.trans hother⟩

/-- A KILL leaves nodes that are neither above nor below its own. -/
theorem HasData.kill (hdata : g.HasData other) (habove : ¬ other <+: path)
    (hbelow : ¬ path <+: other) : (g.kill path).HasData other := by
  obtain ⟨node, hmem, hother⟩ := hdata
  refine ⟨node, mem_kill.mpr ⟨hmem, fun hpath => ?_⟩, hother⟩
  rcases prefix_or_prefix_of_prefix hother hpath with hpre | hpre
  · exact habove hpre
  · exact hbelow hpre

theorem mem_children {subscript : σ} :
    subscript ∈ g.children path ↔ g.HasData (path ++ [subscript]) := by
  simp only [children, mem_filterMap, HasData]
  constructor
  · rintro ⟨node, hmem, hchild⟩
    split_ifs at hchild with hpath
    obtain ⟨rest, hrest⟩ := hpath
    refine ⟨node, hmem, ?_⟩
    rw [← hrest, getElem?_append_right (le_refl _), Nat.sub_self] at hchild
    obtain ⟨tail, rfl⟩ : ∃ tail, rest = subscript :: tail := by
      cases rest with
      | nil => simp at hchild
      | cons head tail => exact ⟨tail, by simpa using hchild⟩
    exact ⟨tail, by simpa using hrest⟩
  · rintro ⟨node, hmem, tail, htail⟩
    refine ⟨node, hmem, ?_⟩
    have hpath : path <+: node.1 := ⟨subscript :: tail, by simpa using htail⟩
    rw [if_pos hpath, ← htail]
    simp

/-- `$ORDER` from the empty subscript finds a subscript if there is one. -/
theorem order_none : g.order path none = none ↔ ∀ subscript, ¬ g.HasData (path ++ [subscript]) := by
  simp [order, find?_eq_none, ← mem_children]

theorem order_some {subscript : σ} (horder : g.order path none = some subscript) :
    g.HasData (path ++ [subscript]) :=
  mem_children.mp (mem_of_find?_eq_some horder)

theorem nodup_nodes (g : Global σ V) : g.nodes.Nodup :=
  g.sorted.imp fun hlt heq => hlt.ne (congrArg Prod.fst heq)

/-- A new node is put among the others. -/
theorem set_perm (value : V) (hpath : g.get path = none) :
    (g.set path value).nodes.Perm ((path, value) :: g.nodes) := by
  have hnew : (path, value) ∉ g.nodes := fun hmem =>
    get_eq_none.mp hpath _ hmem rfl
  refine (perm_ext_iff_of_nodup (nodup_nodes _) (nodup_cons.mpr ⟨hnew, g.nodup_nodes⟩)).mpr ?_
  intro node
  rw [mem_set, mem_cons]
  refine or_congr_right ⟨And.left, fun hmem => ⟨hmem, ?_⟩⟩
  exact get_eq_none.mp hpath node hmem

/-- A node without descendants is taken out. -/
theorem kill_perm (hmem : (path, value) ∈ g.nodes)
    (honly : ∀ node ∈ g.nodes, path <+: node.1 → node.1 = path) :
    g.nodes.Perm ((path, value) :: (g.kill path).nodes) := by
  have hgone : (path, value) ∉ (g.kill path).nodes := by simp [mem_kill]
  refine (perm_ext_iff_of_nodup g.nodup_nodes (nodup_cons.mpr ⟨hgone, nodup_nodes _⟩)).mpr ?_
  rintro ⟨key, found⟩
  rw [mem_cons, mem_kill]
  constructor
  · intro hnode
    by_cases hpre : path <+: key
    · obtain rfl : key = path := honly _ hnode hpre
      rw [eq_of_mem hnode hmem]
      exact .inl rfl
    · exact .inr ⟨hnode, hpre⟩
  · rintro (heq | ⟨hnode, _⟩)
    · rw [heq]
      exact hmem
    · exact hnode

theorem lt_snoc (path : List σ) (subscript : σ) : path < path ++ [subscript] := by
  induction path with
  | nil => exact nil_lt_cons subscript []
  | cons head path ih => exact cons_lt_cons_iff.mpr (.inr ⟨rfl, ih⟩)

/-- Between a node and one of its descendants there are only descendants. -/
theorem isPrefix_of_between {key tail : List σ} (hle : ¬ key < path)
    (hge : ¬ path ++ tail < key) : path <+: key := by
  induction path generalizing key with
  | nil => exact nil_prefix
  | cons head path ih =>
    cases key with
    | nil => exact absurd (nil_lt_cons head path) hle
    | cons first key =>
      simp only [cons_append, cons_lt_cons_iff, not_or, not_and] at hle hge
      obtain rfl : head = first := le_antisymm (not_lt.mp hle.1) (not_lt.mp hge.1)
      exact cons_prefix_cons.mpr ⟨rfl, ih (hle.2 rfl) (hge.2 rfl)⟩

section Walk

def everyOther {α : Type*} : List α → List α
  | _ :: second :: rest => second :: everyOther rest
  | _ => []

theorem length_everyOther {α : Type*} (list : List α) :
    (everyOther list).length = list.length / 2 := by
  induction list using everyOther.induct with
  | case1 first second rest ih =>
    simp only [everyOther, length_cons, ih]
    omega
  | case2 list hshort =>
    rcases list with _ | ⟨first, _ | ⟨second, rest⟩⟩
    · simp [everyOther]
    · simp [everyOther]
    · exact absurd rfl (hshort first second rest)

theorem mem_tail_of_mem_everyOther {α : Type*} {list : List α} {a : α}
    (hmem : a ∈ everyOther list) : a ∈ list.tail := by
  induction list using everyOther.induct with
  | case1 first second rest ih =>
    rcases mem_cons.mp hmem with rfl | hmem
    · simp
    · exact mem_cons_of_mem _ (mem_of_mem_tail (ih hmem))
  | case2 list hshort =>
    unfold everyOther at hmem
    split at hmem
    · exact absurd rfl (hshort _ _ _)
    · simp at hmem

/-- The nodes met by following `$QUERY` two nodes at a time. -/
def walkTwo (g : Global σ V) : Nat → List σ → List (List σ)
  | 0, _ => []
  | fuel + 1, path =>
    match (g.query path).bind g.query with
    | none => []
    | some next => next :: g.walkTwo fuel next

theorem query_split {g : Global σ V} (front rest : List (List σ × V)) {path : List σ}
    (hnodes : g.nodes = front ++ rest) (hfront : ∀ node ∈ front, ¬ path < node.1)
    (hrest : ∀ node ∈ rest, path < node.1) : g.query path = rest.head?.map Prod.fst := by
  have hnone : front.find? (path < ·.1) = none := by
    simpa [find?_eq_none] using hfront
  rw [query, hnodes, find?_append, hnone, Option.none_or]
  cases rest with
  | nil => rfl
  | cons head tail =>
    have := hrest head (by simp)
    simp [this]

theorem walkTwo_split {g : Global σ V} (rest : List (List σ × V)) :
    ∀ (front : List (List σ × V)) {path : List σ} {fuel : Nat},
      g.nodes = front ++ rest → (∀ node ∈ front, ¬ path < node.1) →
      (∀ node ∈ rest, path < node.1) → rest.length ≤ fuel →
      g.walkTwo fuel path = everyOther (rest.map Prod.fst) := by
  induction rest using everyOther.induct with
  | case1 first second rest ih =>
    intro front path fuel hnodes hfront hrest hfuel
    have hsorted := g.sorted
    rw [hnodes] at hsorted
    obtain ⟨_, htail, hfrontLt⟩ := pairwise_append.mp hsorted
    obtain ⟨hfirst, htail⟩ := pairwise_cons.mp htail
    obtain ⟨hsecond, _⟩ := pairwise_cons.mp htail
    have hquery := query_split front _ hnodes hfront hrest
    have hnext : g.query first.1 = some second.1 := by
      rw [query_split (front ++ [first]) (second :: rest)]
      · rfl
      · simp [hnodes]
      · intro node hnode
        rcases mem_append.mp hnode with hnode | hnode
        · exact (hfrontLt node hnode first (by simp)).not_gt
        · simp [mem_singleton.mp hnode]
      · exact hfirst
    obtain ⟨fuel, rfl⟩ : ∃ n, fuel = n + 1 :=
      Nat.exists_eq_succ_of_ne_zero (by simp at hfuel; omega)
    rw [walkTwo, hquery]
    simp only [head?_cons, Option.map_some, Option.bind_some, hnext,
      map_cons, everyOther, List.cons.injEq, true_and]
    apply ih (front ++ [first, second])
    · simp [hnodes]
    · intro node hnode
      rcases mem_append.mp hnode with hnode | hnode
      · exact (hfrontLt node hnode second (by simp)).not_gt
      · simp only [mem_cons, not_mem_nil, or_false] at hnode
        rcases hnode with rfl | rfl
        · exact (hfirst second (by simp)).not_gt
        · exact lt_irrefl _
    · exact hsecond
    · simp at hfuel
      omega
  | case2 rest hshort =>
    intro front path fuel hnodes hfront hrest hfuel
    cases fuel with
    | zero =>
      cases rest with
      | nil => rfl
      | cons first tail => simp at hfuel
    | succ fuel =>
      rw [walkTwo, query_split front rest hnodes hfront hrest]
      rcases rest with _ | ⟨first, _ | ⟨second, tail⟩⟩
      · rfl
      · have hnone : g.query first.1 = none := by
          rw [query_split g.nodes []]
          · rfl
          · simp
          · have hsorted := g.sorted
            rw [hnodes] at hsorted
            intro node hnode
            rw [hnodes, mem_append, mem_singleton] at hnode
            rcases hnode with hnode | rfl
            · exact ((pairwise_append.mp hsorted).2.2 node hnode
                first (by simp)).not_gt
            · exact lt_irrefl _
          · simp
        simp [hnone, everyOther]
      · exact absurd rfl (hshort first second tail)

/-- The walk from the root meets every second node. -/
theorem walkTwo_root (g : Global σ V) (hroot : g.get [] = none) {fuel : Nat}
    (hfuel : g.nodes.length ≤ fuel) : g.walkTwo fuel [] = everyOther (g.nodes.map Prod.fst) := by
  apply walkTwo_split g.nodes [] rfl (by simp) ?_ hfuel
  intro node hnode
  have hne := get_eq_none.mp hroot node hnode
  cases hpath : node.1 with
  | nil => exact absurd hpath hne
  | cons head tail => exact nil_lt_cons head tail

end Walk

end Global

end GlobalTree
