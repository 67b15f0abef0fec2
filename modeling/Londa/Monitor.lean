import Londa.Counting
import Mathlib.Algebra.Group.Action.Defs
import Mathlib.Algebra.Order.BigOperators.Group.Finset
import Mathlib.Logic.Function.Basic
import Mathlib.Data.Fintype.Basic

/-!
# Mutexes and condition variables over a map of program counters

A thread map `pc : ι → ρ` gives the program counter of every thread. `Guarded`
is the discipline of a mutex: the owner is exactly the thread that is inside a
critical section. A condition variable says which counters are blocked in `wait`
and where a blocked thread goes on when it is woken; `notifyAll` wakes all of
them and `notifyOne` one, picked by the scheduler, if there is one.
-/

namespace Londa

variable {ι ρ β : Type*}

/-- The owner of the mutex is the one thread inside a critical section. -/
def Guarded (inside : ι → Bool) (owner : Option ι) : Prop :=
  ∀ i, inside i = true ↔ owner = some i

namespace Guarded

variable {inside inside' : ι → Bool} {owner : Option ι} {i j : ι}

theorem owner_eq (h : Guarded inside owner) (hi : inside i) : owner = some i := (h i).1 hi

theorem unique (h : Guarded inside owner) (hi : inside i) (hj : inside j) : i = j :=
  Option.some.inj ((h.owner_eq hi).symm.trans (h.owner_eq hj))

theorem free (h : Guarded inside none) : ¬ inside i := fun hi => by
  cases (h i).1 hi

theorem owner_none (h : Guarded inside owner) (hout : ∀ i, inside i = false) : owner = none := by
  rw [Option.eq_none_iff_forall_ne_some]
  intro i hi
  have hin := (h i).2 hi
  rw [hout i] at hin
  cases hin

theorem acquire (h : Guarded inside none) (hi : inside' i)
    (hframe : ∀ j, j ≠ i → inside' j = inside j) : Guarded inside' (some i) := by
  intro j
  by_cases hj : j = i
  · subst j
    exact iff_of_true hi rfl
  · rw [hframe j hj]
    exact iff_of_false h.free (fun he => hj (Option.some.inj he).symm)

theorem release (h : Guarded inside owner) (hi : inside i) (hi' : inside' i = false)
    (hframe : ∀ j, j ≠ i → inside' j = inside j) : Guarded inside' none := by
  intro j
  refine iff_of_false ?_ (fun he => by cases he)
  intro hj
  by_cases hji : j = i
  · subst j
    rw [hi'] at hj
    cases hj
  · rw [hframe j hji] at hj
    exact hji (h.unique hj hi)

theorem congr (h : Guarded inside owner) (hframe : ∀ j, inside' j = inside j) :
    Guarded inside' owner := fun j => by rw [hframe j]; exact h j

end Guarded

/-- Frame rule of a thread step: what the step does not change for the thread
that takes it is unchanged for every thread. -/
theorem update_frame [DecidableEq ι] (f : ρ → β) {pc : ι → ρ} {i : ι} {p : ρ}
    (h : f p = f (pc i)) (j : ι) : f (Function.update pc i p j) = f (pc j) := by
  by_cases hj : j = i
  · subst j
    rw [Function.update_self, h]
  · rw [Function.update_of_ne hj]

/-- What holds of every thread at some counters still does after one thread has moved, if
it holds of that thread at its new counter. -/
theorem update_imp [DecidableEq ι] (f : ρ → Bool) {P : ι → Prop} {pc : ι → ρ} {i : ι} {p : ρ}
    (h : ∀ j, f (pc j) → P j) (hp : f p → P i) (j : ι) (hj : f (Function.update pc i p j)) :
    P j :=
  (Function.forall_update_iff pc fun j q => f q → P j).2 ⟨hp, fun j _ => h j⟩ j hj

section ThreadMap

variable [DecidableEq ι] {f : ρ → Bool} {pc : ι → ρ} {i : ι} {p : ρ}

theorem Guarded.acquire_update (h : Guarded (fun j => f (pc j)) none) (hp : f p = true) :
    Guarded (fun j => f (Function.update pc i p j)) (some i) := by
  refine h.acquire ?_ (fun j hj => ?_)
  · simp [hp]
  · simp [hj]

theorem Guarded.release_update {owner : Option ι} (h : Guarded (fun j => f (pc j)) owner)
    (hi : f (pc i) = true) (hp : f p = false) :
    Guarded (fun j => f (Function.update pc i p j)) none := by
  refine h.release hi ?_ (fun j hj => ?_)
  · simp [hp]
  · simp [hj]

end ThreadMap

structure CondVar (ρ : Type*) where
  blocked : ρ → Bool
  wake : ρ → ρ
  wake_not_blocked : ∀ p, blocked p → blocked (wake p) = false

namespace CondVar

variable (cv : CondVar ρ)

def notifyAll (pc : ι → ρ) : ι → ρ :=
  fun i => if cv.blocked (pc i) then cv.wake (pc i) else pc i

/-- One blocked thread among `ts` is woken, `w` being the scheduler's choice.
There is no choice to make exactly when no thread of `ts` is blocked. -/
def notifyOne [DecidableEq ι] (ts : Finset ι) (pc : ι → ρ) : Option ι → Option (ι → ρ)
  | some i =>
      if i ∈ ts ∧ cv.blocked (pc i) then some (Function.update pc i (cv.wake (pc i))) else none
  | none => if ∀ i ∈ ts, cv.blocked (pc i) = false then some pc else none

theorem notifyAll_not_blocked (pc : ι → ρ) (i : ι) :
    cv.blocked (cv.notifyAll pc i) = false := by
  unfold notifyAll
  split_ifs with h
  · exact cv.wake_not_blocked _ h
  · simpa using h

theorem notifyAll_of_not_blocked {pc : ι → ρ} {i : ι} (h : cv.blocked (pc i) = false) :
    cv.notifyAll pc i = pc i := by
  unfold notifyAll
  rw [h]
  rfl

/-- What waking does not change survives `notifyAll`. -/
theorem notifyAll_frame (f : ρ → β) (hf : ∀ p, cv.blocked p → f (cv.wake p) = f p)
    (pc : ι → ρ) (i : ι) : f (cv.notifyAll pc i) = f (pc i) := by
  unfold notifyAll
  split_ifs with h
  · exact hf _ h
  · rfl

/-- What holds of every thread at some counters still does after `notifyAll`, if it holds
of the threads that were blocked. -/
theorem notifyAll_imp (f : ρ → Bool) {P : ι → Prop} {pc : ι → ρ} (h : ∀ j, f (pc j) → P j)
    (hb : ∀ j, cv.blocked (pc j) → P j) (j : ι) (hj : f (cv.notifyAll pc j)) : P j := by
  unfold notifyAll at hj
  split_ifs at hj with hblock
  · exact hb j hblock
  · exact h j hj

/-- A counter to which waking does not lead was there before. -/
theorem notifyAll_eq {pc : ι → ρ} {p : ρ} (hp : ∀ q, cv.wake q ≠ p) {i : ι}
    (h : cv.notifyAll pc i = p) : pc i = p := by
  unfold notifyAll at h
  split_ifs at h
  · exact absurd h (hp _)
  · exact h

section One

variable [DecidableEq ι] {ts : Finset ι} {pc pc' : ι → ρ} {w : Option ι}

theorem notifyOne_eq_some (h : cv.notifyOne ts pc w = some pc') :
    (∃ i ∈ ts, cv.blocked (pc i) ∧ pc' = Function.update pc i (cv.wake (pc i))) ∨
      ((∀ i ∈ ts, cv.blocked (pc i) = false) ∧ pc' = pc) := by
  cases w with
  | some i =>
      simp only [notifyOne] at h
      split_ifs at h with hb
      exact Or.inl ⟨i, hb.1, hb.2, (Option.some.inj h).symm⟩
  | none =>
      simp only [notifyOne] at h
      split_ifs at h with hb
      exact Or.inr ⟨hb, (Option.some.inj h).symm⟩

theorem notifyOne_frame (f : ρ → β) (hf : ∀ p, cv.blocked p → f (cv.wake p) = f p)
    (h : cv.notifyOne ts pc w = some pc') (j : ι) : f (pc' j) = f (pc j) := by
  rcases cv.notifyOne_eq_some h with ⟨i, _, hb, rfl⟩ | ⟨_, rfl⟩
  · exact update_frame f (hf _ hb) j
  · rfl

theorem notifyOne_eq (hw : cv.notifyOne ts pc w = some pc') {p : ρ} (hp : ∀ q, cv.wake q ≠ p)
    {j : ι} (h : pc' j = p) : pc j = p := by
  rcases cv.notifyOne_eq_some hw with ⟨i, _, _, rfl⟩ | ⟨_, rfl⟩
  · by_cases hj : j = i
    · subst j
      rw [Function.update_self] at h
      exact absurd h (hp _)
    · rwa [Function.update_of_ne hj] at h
  · exact h

/-- A thread that is not blocked is left alone. -/
theorem notifyOne_of_not_blocked (h : cv.notifyOne ts pc w = some pc') {j : ι}
    (hj : cv.blocked (pc j) = false) : pc' j = pc j := by
  rcases cv.notifyOne_eq_some h with ⟨i, -, hb, rfl⟩ | ⟨-, rfl⟩
  · have hji : j ≠ i := by
      rintro rfl
      rw [hj] at hb
      cases hb
    exact Function.update_of_ne hji _ _
  · rfl

/-- The scheduler always has a choice. -/
theorem exists_notifyOne (ts : Finset ι) (pc : ι → ρ) :
    ∃ w pc', cv.notifyOne ts pc w = some pc' := by
  by_cases hb : ∃ i ∈ ts, cv.blocked (pc i)
  · obtain ⟨i, hi, hb⟩ := hb
    exact ⟨some i, _, if_pos ⟨hi, hb⟩⟩
  · refine ⟨none, pc, if_pos (fun i hi => ?_)⟩
    by_contra hne
    exact hb ⟨i, hi, by simpa using hne⟩

/-- After `notifyOne` some thread of `ts` is awake, as soon as there is one. -/
theorem notifyOne_awake (hts : ts.Nonempty) (h : cv.notifyOne ts pc w = some pc') :
    ∃ i ∈ ts, cv.blocked (pc' i) = false := by
  rcases cv.notifyOne_eq_some h with ⟨i, hi, hb, rfl⟩ | ⟨hall, rfl⟩
  · exact ⟨i, hi, by rw [Function.update_self]; exact cv.wake_not_blocked _ hb⟩
  · obtain ⟨i, hi⟩ := hts
    exact ⟨i, hi, hall i hi⟩

end One

section Weights

variable {w : ρ → ℕ} {g : ℕ}

/-- Where a wakeup adds at most `g` to the weight of a thread, `notifyAll` adds at most `g`
for each thread. -/
theorem sum_notifyAll_le (us : Finset ι) (pc : ι → ρ)
    (hw : ∀ p, cv.blocked p → w (cv.wake p) ≤ w p + g) :
    ∑ i ∈ us, w (cv.notifyAll pc i) ≤ ∑ i ∈ us, w (pc i) + us.card * g := by
  rw [← smul_eq_mul, ← Finset.sum_const, ← Finset.sum_add_distrib]
  refine Finset.sum_le_sum (fun i _ => ?_)
  unfold notifyAll
  split_ifs with hb
  · exact hw _ hb
  · exact Nat.le_add_right _ _

theorem sum_notifyOne_le [DecidableEq ι] {ts us : Finset ι} {pc pc' : ι → ρ} {x : Option ι}
    (hw : ∀ p, cv.blocked p → w (cv.wake p) ≤ w p + g) (hts : ts ⊆ us)
    (h : cv.notifyOne ts pc x = some pc') :
    ∑ i ∈ us, w (pc' i) ≤ ∑ i ∈ us, w (pc i) + g := by
  rcases cv.notifyOne_eq_some h with ⟨i, hi, hb, rfl⟩ | ⟨-, rfl⟩
  · have hsum : ∑ j ∈ us, w (Function.update pc i (cv.wake (pc i)) j) + w (pc i) =
        ∑ j ∈ us, w (pc j) + w (cv.wake (pc i)) := sum_update_add w (hts hi)
    have hle := hw _ hb
    omega
  · exact Nat.le_add_right _ _

end Weights

end CondVar
end Londa
