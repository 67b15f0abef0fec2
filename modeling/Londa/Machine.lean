import Mathlib.Algebra.Order.Ring.Int
import Mathlib.Data.List.Basic

/-!
# Machines with an executable step

A machine has an initial state and a partial step function: `step s a` is the
state after action `a`, or `none` where `a` is not enabled in `s`. Interleavings
of threads and orders of events are lists of actions, so a concrete run can be
evaluated, and a property of every run is an invariant of `Reachable`.
`ReachableBy C` restricts the runs to steps that meet a condition `C` on the
state before the step and on the action.
-/

namespace Londa

/-- In a concrete run with one thread the thread is written `0`. -/
instance neZero_one : NeZero 1 := ⟨Nat.one_ne_zero⟩

structure Machine (σ α : Type*) where
  init : σ
  step : σ → α → Option σ

namespace Machine

variable {σ α : Type*} (M : Machine σ α)

def runFrom (s : σ) : List α → Option σ
  | [] => some s
  | a :: as => (M.step s a).bind (fun t => runFrom t as)

def run (as : List α) : Option σ := M.runFrom M.init as

inductive ReachableBy (C : σ → α → Prop) : σ → Prop
  | init : ReachableBy C M.init
  | step {s t : σ} {a : α} : ReachableBy C s → C s a → M.step s a = some t → ReachableBy C t

def Reachable : σ → Prop := M.ReachableBy (fun _ _ => True)

/-- Every step that the run of `as` from `s` takes meets the condition. -/
def Meets (C : σ → α → Prop) : σ → List α → Prop
  | _, [] => True
  | s, a :: as => C s a ∧ ∀ t, M.step s a = some t → Meets C t as

/-- The run from `s`, given up at the first step that fails the check. -/
def checkedFrom (C : σ → α → Bool) (s : σ) : List α → Option σ
  | [] => some s
  | a :: as => if C s a then (M.step s a).bind (fun t => checkedFrom C t as) else none

theorem runFrom_cons (s : σ) (a : α) (as : List α) :
    M.runFrom s (a :: as) = (M.step s a).bind (fun t => M.runFrom t as) := rfl

theorem runFrom_cons_eq_some {s u : σ} {a : α} {as : List α} :
    M.runFrom s (a :: as) = some u ↔ ∃ t, M.step s a = some t ∧ M.runFrom t as = some u := by
  rw [runFrom_cons, Option.bind_eq_some_iff]

theorem runFrom_append (s : σ) (as bs : List α) :
    M.runFrom s (as ++ bs) = (M.runFrom s as).bind (fun t => M.runFrom t bs) := by
  induction as generalizing s with
  | nil => rfl
  | cons a as ih =>
      rw [List.cons_append, runFrom_cons, runFrom_cons, Option.bind_assoc]
      exact congrArg _ (funext ih)

variable {M}

namespace ReachableBy

variable {C D : σ → α → Prop}

theorem mono {s : σ} (hCD : ∀ s a, C s a → D s a) (h : M.ReachableBy C s) :
    M.ReachableBy D s := by
  induction h with
  | init => exact .init
  | step _ hc hst ih => exact .step ih (hCD _ _ hc) hst

theorem reachable {s : σ} (h : M.ReachableBy C s) : M.Reachable s :=
  h.mono (fun _ _ _ => trivial)

theorem mono_reachable {s : σ} (hCD : ∀ s a, M.Reachable s → C s a → D s a)
    (h : M.ReachableBy C s) : M.ReachableBy D s := by
  induction h with
  | init => exact .init
  | step hr hc hst ih => exact .step ih (hCD _ _ hr.reachable hc) hst

/-- The induction rule of the development: a predicate that holds initially and
that every admitted step preserves holds in every state reached. The step may
use that its source state is reached. -/
theorem invariant {I : σ → Prop} {s : σ} (h : M.ReachableBy C s) (h₀ : I M.init)
    (hstep : ∀ {s t a}, M.ReachableBy C s → I s → C s a → M.step s a = some t → I t) : I s := by
  induction h with
  | init => exact h₀
  | step hr hc hst ih => exact hstep hr ih hc hst

theorem runFrom {s t : σ} {as : List α} (hr : M.ReachableBy C s) (hm : M.Meets C s as)
    (h : M.runFrom s as = some t) : M.ReachableBy C t := by
  induction as generalizing s with
  | nil => exact Option.some.inj h ▸ hr
  | cons a as ih =>
      obtain ⟨u, hu, hrest⟩ := M.runFrom_cons_eq_some.1 h
      exact ih (hr.step hm.1 hu) (hm.2 u hu) hrest

end ReachableBy

theorem Reachable.step {s t : σ} {a : α} (h : M.Reachable s) (hst : M.step s a = some t) :
    M.Reachable t := ReachableBy.step h trivial hst

theorem Reachable.invariant {I : σ → Prop} {s : σ} (h : M.Reachable s) (h₀ : I M.init)
    (hstep : ∀ {s t a}, M.Reachable s → I s → M.step s a = some t → I t) : I s :=
  ReachableBy.invariant h h₀ (fun hr hi _ hst => hstep hr hi hst)

/-- A measure that every step decreases, but for what its action may add, bounds the
length of the runs. -/
theorem Reachable.length_add_le_gain (rank : σ → ℕ) (gain : α → ℕ) {s t : σ} {as : List α}
    (hr : M.Reachable s)
    (hstep : ∀ {s t a}, M.Reachable s → M.step s a = some t → rank t < rank s + gain a)
    (h : M.runFrom s as = some t) : as.length + rank t ≤ rank s + (as.map gain).sum := by
  induction as generalizing s with
  | nil =>
      obtain rfl := Option.some.inj h
      exact (Nat.zero_add _).le
  | cons a as ih =>
      obtain ⟨u, hu, hrest⟩ := M.runFrom_cons_eq_some.1 h
      have hlater := ih (hr.step hu) hrest
      have hfirst := hstep hr hu
      rw [List.length_cons, List.map_cons, List.sum_cons]
      omega

/-- The same for a measure that every step decreases. -/
theorem Reachable.length_add_le (rank : σ → ℕ) {s t : σ} {as : List α} (hr : M.Reachable s)
    (hstep : ∀ {s t a}, M.Reachable s → M.step s a = some t → rank t < rank s)
    (h : M.runFrom s as = some t) : as.length + rank t ≤ rank s := by
  simpa using hr.length_add_le_gain rank (fun _ => 0) hstep h

theorem meets_true (s : σ) (as : List α) : M.Meets (fun _ _ => True) s as := by
  induction as generalizing s with
  | nil => trivial
  | cons a as ih => exact ⟨trivial, fun t _ => ih t⟩

theorem Reachable.runFrom {s t : σ} {as : List α} (hr : M.Reachable s)
    (h : M.runFrom s as = some t) : M.Reachable t :=
  ReachableBy.runFrom hr (meets_true s as) h

/-- Conditions that agree wherever a reached state takes a step agree on every run. -/
theorem Reachable.meets_congr {C D : σ → α → Prop} {s t : σ} {as : List α} (hr : M.Reachable s)
    (hCD : ∀ {s t a}, M.Reachable s → M.step s a = some t → (C s a ↔ D s a))
    (h : M.runFrom s as = some t) : M.Meets C s as ↔ M.Meets D s as := by
  induction as generalizing s with
  | nil => exact Iff.rfl
  | cons a as ih =>
      obtain ⟨u, hu, hrest⟩ := M.runFrom_cons_eq_some.1 h
      apply and_congr (hCD hr hu)
      constructor
      · intro hm v hv
        obtain rfl : u = v := Option.some.inj (hu.symm.trans hv)
        exact (ih (hr.step hu) hrest).1 (hm u hu)
      · intro hm v hv
        obtain rfl : u = v := Option.some.inj (hu.symm.trans hv)
        exact (ih (hr.step hu) hrest).2 (hm u hu)

theorem reachable_of_run {s : σ} (as : List α) (h : M.run as = some s) : M.Reachable s :=
  Reachable.runFrom ReachableBy.init h

/-- The last step of a run, from the run without it. -/
theorem step_of_run {s t : σ} {as : List α} {a : α} (h : M.run as = some s)
    (h' : M.run (as ++ [a]) = some t) : M.step s a = some t := by
  unfold run at h h'
  rw [runFrom_append, h] at h'
  obtain ⟨u, hu, hrest⟩ := M.runFrom_cons_eq_some.1 h'
  cases hrest
  exact hu

theorem reachable_of_run_map {β : Type*} {f : σ → β} {b : β} {as : List α}
    (h : (M.run as).map f = some b) : ∃ s, M.run as = some s ∧ M.Reachable s ∧ f s = b := by
  obtain ⟨s, hs, hf⟩ := Option.map_eq_some_iff.1 h
  exact ⟨s, hs, reachable_of_run as hs, hf⟩

theorem ReachableBy.checkedFrom {C : σ → α → Bool} {s t : σ} {as : List α}
    (hr : M.ReachableBy (fun s a => C s a = true) s) (h : M.checkedFrom C s as = some t) :
    M.ReachableBy (fun s a => C s a = true) t := by
  induction as generalizing s with
  | nil => exact Option.some.inj h ▸ hr
  | cons a as ih =>
      unfold Machine.checkedFrom at h
      split at h
      · rename_i hc
        obtain ⟨u, hu, hrest⟩ := Option.bind_eq_some_iff.1 h
        exact ih (hr.step hc hu) hrest
      · cases h

theorem meets_of_checked {C : σ → α → Bool} {D : σ → α → Prop} {s t : σ} {as : List α}
    (hCD : ∀ s a, C s a = true → D s a) (h : M.checkedFrom C s as = some t) : M.Meets D s as := by
  induction as generalizing s with
  | nil => trivial
  | cons a as ih =>
      unfold Machine.checkedFrom at h
      split at h
      · rename_i hc
        obtain ⟨u, hu, hrest⟩ := Option.bind_eq_some_iff.1 h
        refine ⟨hCD s a hc, fun v hv => ?_⟩
        obtain rfl : u = v := Option.some.inj (hu.symm.trans hv)
        exact ih hrest
      · cases h

theorem runFrom_of_checked {C : σ → α → Bool} {s t : σ} {as : List α}
    (h : M.checkedFrom C s as = some t) : M.runFrom s as = some t := by
  induction as generalizing s with
  | nil => exact h
  | cons a as ih =>
      unfold Machine.checkedFrom at h
      split at h
      · obtain ⟨u, hu, hrest⟩ := Option.bind_eq_some_iff.1 h
        exact M.runFrom_cons_eq_some.2 ⟨u, hu, ih hrest⟩
      · cases h

theorem reachableBy_of_checked {β : Type*} {C : σ → α → Bool} {f : σ → β} {b : β} {as : List α}
    (h : (M.checkedFrom C M.init as).map f = some b) :
    ∃ s, M.ReachableBy (fun s a => C s a = true) s ∧ f s = b := by
  obtain ⟨s, hs, hf⟩ := Option.map_eq_some_iff.1 h
  exact ⟨s, ReachableBy.checkedFrom .init hs, hf⟩

/-- If breaking the condition leaves a mark that no later step removes, a run that
ends without the mark met the condition throughout. -/
theorem Reachable.meets_of_mark {C : σ → α → Prop} {K : σ → Prop} {s t : σ} {as : List α}
    (hr : M.Reachable s)
    (hset : ∀ {s t a}, M.Reachable s → ¬ C s a → M.step s a = some t → K t)
    (hkeep : ∀ {s t a}, M.Reachable s → K s → M.step s a = some t → K t)
    (h : M.runFrom s as = some t) (ht : ¬ K t) : M.Meets C s as := by
  have hstays : ∀ {as : List α} {s : σ}, M.Reachable s → K s → M.runFrom s as = some t → K t := by
    intro as
    induction as with
    | nil => intro s _ hm h; exact Option.some.inj h ▸ hm
    | cons a as ih =>
        intro s hr hm h
        obtain ⟨u, hu, hrest⟩ := M.runFrom_cons_eq_some.1 h
        exact ih (hr.step hu) (hkeep hr hm hu) hrest
  induction as generalizing s with
  | nil => trivial
  | cons a as ih =>
      obtain ⟨u, hu, hrest⟩ := M.runFrom_cons_eq_some.1 h
      constructor
      · by_contra hc
        exact ht (hstays (hr.step hu) (hset hr hc hu) hrest)
      · intro v hv
        rw [hu] at hv
        exact Option.some.inj hv ▸ ih (hr.step hu) hrest

end Machine
end Londa
