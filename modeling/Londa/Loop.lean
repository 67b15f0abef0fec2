import Mathlib.Data.List.Basic

/-!
# Loops that may not end

One turn of a loop takes a state to the next one, or leaves the loop with a result. `Ends`
says that the loop is left, so a loop that goes round for ever ends with no result; `run`
takes a bounded number of turns.
-/

namespace Londa.Loop

variable {σ β : Type*} {turn : σ → σ ⊕ β} {s t : σ} {b c : β}

inductive Ends (turn : σ → σ ⊕ β) : σ → β → Prop
  | leave {s : σ} {b : β} : turn s = .inr b → Ends turn s b
  | again {s t : σ} {b : β} : turn s = .inl t → Ends turn t b → Ends turn s b

def run (turn : σ → σ ⊕ β) : ℕ → σ → Option β
  | 0, _ => none
  | n + 1, s =>
      match turn s with
      | .inl t => run turn n t
      | .inr b => some b

theorem ends_of_run {n : ℕ} (h : run turn n s = some b) : Ends turn s b := by
  induction n generalizing s with
  | zero => cases h
  | succ n ih =>
      unfold run at h
      split at h
      · rename_i t ht
        exact .again ht (ih h)
      · rename_i b' hb
        cases h
        exact .leave hb

theorem Ends.unique (h : Ends turn s b) (h' : Ends turn s c) : b = c := by
  induction h with
  | leave hb =>
      cases h' with
      | leave hc => exact Sum.inr.inj (hb.symm.trans hc)
      | again ht _ =>
          rw [hb] at ht
          cases ht
  | again ht _ ih =>
      cases h' with
      | leave hc =>
          rw [ht] at hc
          cases hc
      | again ht' hrest =>
          cases Sum.inl.inj (ht.symm.trans ht')
          exact ih hrest

/-- A loop that always finds a state to go round from does not end. -/
theorem not_ends_of_invariant {I : σ → Prop} (hs : I s)
    (hstep : ∀ s, I s → ∃ t, turn s = .inl t ∧ I t) : ¬ Ends turn s b := by
  intro h
  induction h with
  | leave hb =>
      obtain ⟨t, ht, -⟩ := hstep _ hs
      rw [hb] at ht
      cases ht
  | again ht _ ih =>
      obtain ⟨t', ht', hI⟩ := hstep _ hs
      cases Sum.inl.inj (ht.symm.trans ht')
      exact ih hI

end Londa.Loop
