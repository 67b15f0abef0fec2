import Mathlib.Algebra.BigOperators.Group.Finset.Piecewise
import Mathlib.Data.Finset.Card
import Mathlib.Data.List.Basic
import Mathlib.Tactic.SplitIfs

/-!
# Counting the entries of a table

A table is a list whose entries are replaced in place, or a map of which a finite
set of places is looked at. These are the exact changes of a count when one entry
is replaced.
-/

namespace Londa

variable {α : Type*}

/-- Replacing `x` by `y` trades the contribution of `x` for that of `y`. -/
theorem countP_set_add {f : α → Bool} {l : List α} {i : ℕ} {x y : α} (h : l[i]? = some x) :
    (l.set i y).countP f + (if f x then 1 else 0) = l.countP f + (if f y then 1 else 0) := by
  induction l generalizing i with
  | nil => simp at h
  | cons z l ih =>
      cases i with
      | zero =>
          obtain rfl : z = x := by simpa using h
          simp only [List.set_cons_zero, List.countP_cons]
          omega
      | succ i =>
          have hi := ih (i := i) (by simpa using h)
          simp only [List.set_cons_succ, List.countP_cons]
          omega

/-- A counted entry makes the count positive. -/
theorem countP_pos_of_getElem? {f : α → Bool} {l : List α} {i : ℕ} {x : α} (h : l[i]? = some x)
    (hf : f x = true) : 0 < l.countP f :=
  List.countP_pos_iff.2 ⟨x, List.mem_of_getElem? h, hf⟩

section Map

variable {ι ρ : Type*} {f : ρ → Bool} {ts : Finset ι} {pc : ι → ρ}

/-- The places of `ts` whose entry is counted. -/
def places (f : ρ → Bool) (ts : Finset ι) (pc : ι → ρ) : Finset ι :=
  ts.filter (fun j => f (pc j))

theorem places_congr {pc' : ι → ρ} (h : ∀ j, f (pc' j) = f (pc j)) :
    places f ts pc' = places f ts pc :=
  Finset.filter_congr (fun j _ => by rw [h j])

variable [DecidableEq ι] {i : ι} {p : ρ}

/-- An entry that is not looked at may become anything. -/
theorem places_update_of_notMem (hi : i ∉ ts) :
    places f ts (Function.update pc i p) = places f ts pc := by
  refine Finset.filter_congr (fun j hj => ?_)
  have hji : j ≠ i := fun he => hi (he ▸ hj)
  rw [Function.update_of_ne hji]

theorem places_insert (hi : i ∉ ts) : (places f (insert i ts) pc).card =
    (places f ts pc).card + if f (pc i) then 1 else 0 := by
  unfold places
  rw [Finset.filter_insert]
  split_ifs with h
  · rw [Finset.card_insert_of_notMem (fun hmem => hi (Finset.mem_filter.1 hmem).1)]
  · rfl

/-- Replacing the entry of a place trades its contribution for the new one. -/
theorem card_places_update (hi : i ∈ ts) :
    (places f ts (Function.update pc i p)).card + (if f (pc i) then 1 else 0) =
      (places f ts pc).card + if f p then 1 else 0 := by
  have hout : i ∉ ts.erase i := Finset.notMem_erase i ts
  rw [← Finset.insert_erase hi, places_insert hout, places_insert hout,
    places_update_of_notMem hout, Function.update_self]
  omega

/-- The same for a sum of weights. -/
theorem sum_update_add (w : ρ → ℕ) (hi : i ∈ ts) :
    ∑ j ∈ ts, w (Function.update pc i p j) + w (pc i) = ∑ j ∈ ts, w (pc j) + w p := by
  have hrest : ∑ j ∈ ts.erase i, w (Function.update pc i p j) = ∑ j ∈ ts.erase i, w (pc j) :=
    Finset.sum_congr rfl (fun j hj => by rw [Function.update_of_ne (Finset.ne_of_mem_erase hj)])
  rw [← Finset.add_sum_erase ts _ hi, ← Finset.add_sum_erase ts (fun j => w (pc j)) hi,
    Function.update_self, hrest]
  omega

end Map
end Londa
