/-
Joins of bags.  A tuple is joined with a table by extending it with the rows
of the table that meet a condition; an outer join keeps what found no partner
as well.
-/
import Mathlib.Data.Multiset.Bind
import Mathlib.Data.Multiset.Filter

namespace OuterJoins

open Multiset

/-- One join: how a tuple is extended by a row, the rows it is offered and the
condition on the result. -/
structure Join (E R : Type*) where
  extend : E → R → E
  rows : E → Multiset R
  cond : E → Bool

namespace Join

variable {E F R : Type*}

def extensions (join : Join E R) (tuple : E) : Multiset E :=
  ((join.rows tuple).map (join.extend tuple)).filter (join.cond ·)

def inner (join : Join E R) (tuples : Multiset E) : Multiset E :=
  tuples.bind join.extensions

/-- The tuples without a partner, padded. -/
def leftRest (join : Join E R) (pad : E → E) (tuples : Multiset E) : Multiset E :=
  (tuples.filter fun tuple => Multiset.card (join.extensions tuple) = 0).map pad

/-- The rows without a partner, padded. -/
def rightRest (join : Join E R) (rows : Multiset R) (pad : R → E)
    (tuples : Multiset E) : Multiset E :=
  (rows.filter fun row =>
    ∀ tuple ∈ tuples, join.cond (join.extend tuple row) = false).map pad

/-- A map of the tuples that carries one join to another. -/
structure Maps (g : E → F) (join : Join E R) (image : Join F R) : Prop where
  extend : ∀ tuple row, g (join.extend tuple row) = image.extend (g tuple) row
  rows : ∀ tuple, join.rows tuple = image.rows (g tuple)
  cond : ∀ tuple, join.cond tuple = image.cond (g tuple)

section Maps

variable {g : E → F} {join : Join E R} {image : Join F R} (hmaps : Maps g join image)
include hmaps

theorem Maps.map_extensions (tuple : E) :
    (join.extensions tuple).map g = image.extensions (g tuple) := by
  have hcond : (fun t => join.cond t = true) = (fun t => image.cond t = true) ∘ g := by
    funext t
    simp [hmaps.cond t]
  have hextend : g ∘ join.extend tuple = image.extend (g tuple) := by
    funext row
    exact hmaps.extend tuple row
  unfold extensions
  simp only [hcond]
  rw [← filter_map, map_map, hextend, hmaps.rows]

theorem Maps.map_inner (tuples : Multiset E) :
    (join.inner tuples).map g = image.inner (tuples.map g) := by
  unfold inner
  rw [map_bind, bind_map]
  exact bind_congr fun tuple _ => hmaps.map_extensions tuple

theorem Maps.map_leftRest {pad : E → E} {padImage : F → F}
    (hpad : ∀ tuple, g (pad tuple) = padImage (g tuple)) (tuples : Multiset E) :
    (join.leftRest pad tuples).map g = image.leftRest padImage (tuples.map g) := by
  have hpads : g ∘ pad = padImage ∘ g := funext hpad
  unfold leftRest
  rw [map_map, hpads, ← map_map, filter_map]
  congr 2
  refine filter_congr fun tuple _ => ?_
  rw [Function.comp_apply, ← hmaps.map_extensions, card_map]

theorem Maps.map_rightRest {pad : R → E} {padImage : R → F}
    (hpad : ∀ row, g (pad row) = padImage row) (rows : Multiset R) (tuples : Multiset E) :
    (join.rightRest rows pad tuples).map g = image.rightRest rows padImage (tuples.map g) := by
  have hpads : g ∘ pad = padImage := funext hpad
  unfold rightRest
  rw [map_map, hpads]
  congr 1
  refine filter_congr fun row _ => ?_
  simp [hmaps.cond, hmaps.extend]

end Maps

end Join

end OuterJoins
