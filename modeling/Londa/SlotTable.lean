import Mathlib.Data.Fintype.Fin

/-!
# Tables of slots

A table has a fixed number of slots; the test `p` tells whether the value in a
slot counts as occupied. A search from the front fills the first free slot. A
table is packed to `m` when exactly the slots below `m` are occupied: filling
the first free slot keeps a table packed, freeing a slot makes it hold fewer.
-/

namespace Londa.SlotTable

variable {n : ℕ} {α : Type*} (p : α → Bool) (t : Fin n → α)

def occupied : Finset (Fin n) := Finset.univ.filter fun i => p (t i)

def firstFree : Option (Fin n) := (List.finRange n).find? fun i => !p (t i)

def Packed (m : ℕ) : Prop := ∀ i, p (t i) ↔ (i : ℕ) < m

variable {p t} {i : Fin n} {x : α} {m : ℕ}

@[simp] theorem mem_occupied : i ∈ occupied p t ↔ p (t i) := by
  simp [occupied]

theorem firstFree_eq_some (h : firstFree p t = some i) :
    p (t i) = false ∧ ∀ j, j < i → p (t j) := by
  obtain ⟨hfree, as, bs, hsplit, hbefore⟩ := List.find?_eq_some_iff_append.1 h
  refine ⟨by simpa using hfree, fun j hj => ?_⟩
  have hsorted : (as ++ i :: bs).Pairwise (· < ·) := hsplit ▸ List.pairwise_lt_finRange n
  have hmem : j ∈ as ++ i :: bs := hsplit ▸ List.mem_finRange j
  rcases List.mem_append.1 hmem with hj' | hj'
  · simpa using hbefore j hj'
  · rcases List.mem_cons.1 hj' with rfl | hj'
    · exact absurd hj (lt_irrefl _)
    · have hlt := List.rel_of_pairwise_cons (List.pairwise_append.1 hsorted).2.1 hj'
      exact absurd hlt (not_lt_of_gt hj)

theorem firstFree_eq_none : firstFree p t = none ↔ ∀ i, p (t i) := by
  simp [firstFree]

theorem occupied_fill (hx : p x) :
    occupied p (Function.update t i x) = insert i (occupied p t) := by
  ext j
  by_cases hj : j = i
  · subst j
    simp [hx]
  · simp [hj]

theorem occupied_clear (hx : p x = false) :
    occupied p (Function.update t i x) = (occupied p t).erase i := by
  ext j
  by_cases hj : j = i
  · subst j
    simp [hx]
  · simp [hj]

theorem card_fill (hx : p x) (hi : p (t i) = false) :
    (occupied p (Function.update t i x)).card = (occupied p t).card + 1 := by
  rw [occupied_fill hx, Finset.card_insert_of_notMem (by simp [hi])]

theorem card_clear_lt (hx : p x = false) (hi : p (t i)) :
    (occupied p (Function.update t i x)).card < (occupied p t).card := by
  rw [occupied_clear hx]
  exact Finset.card_erase_lt_of_mem (mem_occupied.2 hi)

theorem Packed.card (h : Packed p t m) (hm : m ≤ n) : (occupied p t).card = m := by
  have hocc : occupied p t = Finset.univ.filter fun i : Fin n => (i : ℕ) < m := by
    ext i
    simpa using h i
  rw [hocc, Fin.card_filter_val_lt, min_eq_right hm]

/-- The first free slot of a packed table is the one behind the occupied ones. -/
theorem Packed.firstFree_eq (h : Packed p t m) (hi : firstFree p t = some i) : (i : ℕ) = m := by
  obtain ⟨hfree, hbefore⟩ := firstFree_eq_some hi
  have hge : m ≤ i := by
    by_contra hlt
    rw [(h i).2 (by omega)] at hfree
    cases hfree
  by_contra hne
  have hm : m < n := by omega
  have hocc := hbefore ⟨m, hm⟩ (Fin.lt_def.2 (by simp only; omega))
  have hlt : m < m := (h ⟨m, hm⟩).1 hocc
  omega

theorem Packed.fill (h : Packed p t m) (hi : firstFree p t = some i) (hx : p x) :
    Packed p (Function.update t i x) (m + 1) := by
  have him := h.firstFree_eq hi
  intro j
  by_cases hj : j = i
  · subst j
    rw [Function.update_self]
    exact iff_of_true hx (by omega)
  · rw [Function.update_of_ne hj, h j]
    have hne : (j : ℕ) ≠ i := fun heq => hj (Fin.ext heq)
    omega

end Londa.SlotTable
