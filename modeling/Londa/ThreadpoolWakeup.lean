import Londa.ThreadpoolDrain

/-!
# Shutdown of the thread pool and the workers asleep

The destructor stores `stoped` and notifies without `m_lock`. A worker that has
evaluated the predicate of `cv_task.wait` before the store and blocks after the
notification sleeps with nobody left to wake it. This window is the only one: if
no worker is in it at the notification, no worker is blocked ever after.
-/

namespace Londa.Threadpool

variable {κ τ : Type*}

/-- The destructor has performed `notify_all`. -/
def DestructorPc.notified : DestructorPc → Bool
  | .joining _ => true
  | .joined => true
  | _ => false

/-- At the notification no worker is between a false predicate and its block. -/
def NoneFallingAsleep (s : State κ τ) (a : Act κ τ) : Prop :=
  a = .notifyAll → ∀ i, s.worker i ≠ .waiting

def Awake (s : State κ τ) : Prop :=
  s.destructor.notified = true → ∀ i, s.worker i ≠ .waiting ∧ s.worker i ≠ .blocked

variable [DecidableEq κ] {s t : State κ τ} {a : Act κ τ}

omit [DecidableEq κ] in
theorem Life.stoped_of_notified (h : Life s) (hn : s.destructor.notified = true) :
    s.stoped = true := by
  apply h.stoped.2
  cases hd : s.destructor <;> simp [hd, DestructorPc.notified] at hn ⊢

/-- Apart from the notification itself, the destructor counts as having notified
after a step only if it did before. -/
theorem trans_notified (ht : Trans s a t) (ha : a ≠ .notifyAll)
    (hn : t.destructor.notified = true) : s.destructor.notified = true := by
  cases ht with
  | notifyAll hd => exact absurd rfl ha
  | destroy hc hd hk => cases hn
  | store hd => cases hn
  | join j hd hj hpc => rw [hd]; rfl
  | joined j hd hj => rw [hd]; rfl
  | _ => exact hn

omit [DecidableEq κ] in
theorem awake_notifyAll (hnone : ∀ i, s.worker i ≠ .waiting) (i : ℕ) :
    cvTask.notifyAll s.worker i ≠ .waiting ∧ cvTask.notifyAll s.worker i ≠ .blocked := by
  constructor
  · intro hw
    exact hnone i (cvTask.notifyAll_eq (by simp [cvTask]) hw)
  · intro hb
    have hnot := cvTask.notifyAll_not_blocked s.worker i
    rw [hb] at hnot
    cases hnot

theorem awake_step (ht : Trans s a t) (hlife : Life s) (hc : NoneFallingAsleep s a)
    (h : Awake s) : Awake t := by
  intro hn i
  by_cases ha : a = .notifyAll
  · subst a
    cases ht with
    | notifyAll hd => exact awake_notifyAll (hc rfl) i
  · have hsn := trans_notified ht ha hn
    have hs := h hsn i
    rcases trans_worker ht i with he | rfl | ⟨_, he⟩ | ⟨_, _, he⟩
    · rwa [he]
    · cases ht with
      | wait _ hpc hd hq =>
          rw [hlife.stoped_of_notified hsn] at hd
          cases hd
      | block _ hpc => exact absurd hpc hs.1
      | _ => simp
    · simp [he]
    · simp [he]

variable [Fintype κ] {size : ℕ}

theorem reachableBy_awake (h : (pool size κ τ).ReachableBy NoneFallingAsleep s) : Awake s :=
  h.invariant (fun hn => by cases hn) (fun hr hi hc hst =>
    awake_step (step_trans hst) (reachable_life hr.reachable) hc hi)

theorem awake_runFrom {as : List (Act κ τ)} (hr : (pool size κ τ).Reachable s) (h : Awake s)
    (hn : s.destructor.notified = true) (hrun : (pool size κ τ).runFrom s as = some t) :
    Awake t ∧ t.destructor.notified = true := by
  induction as generalizing s with
  | nil => exact Option.some.inj hrun ▸ ⟨h, hn⟩
  | cons a as ih =>
      obtain ⟨u, hu, hrest⟩ := (pool size κ τ).runFrom_cons_eq_some.1 hrun
      have ht := step_trans hu
      have hne : a ≠ .notifyAll := by
        rintro rfl
        cases ht with
        | notifyAll hd => rw [hd] at hn; cases hn
      have hun : u.destructor.notified = true := by
        cases ht with
        | destroy hc hd hk => rw [hd] at hn; cases hn
        | store hd => rw [hd] at hn; cases hn
        | notifyAll hd => rfl
        | join j hd hj hpc => rfl
        | joined j hd hj => rfl
        | _ => exact hn
      exact ih (hr.step hu)
        (awake_step ht (reachable_life hr) (fun he => absurd he hne) h) hun hrest

theorem runFrom_block {i : ℕ} (hpc : s.worker i = .waiting) :
    (pool size κ τ).runFrom s [.worker i] = some { s.setWorker i .blocked with mLock := none } := by
  simp [Machine.runFrom, pool, step, workerStep, hpc]

/-- In every run whose notification finds no worker between its false predicate
and its block, no worker is blocked after the notification. The condition is
exact: the states after a notification are all free of blocked workers if and
only if no worker was in that window. -/
theorem shutdown_wakes_all_iff :
    (∀ s, (pool size κ τ).ReachableBy NoneFallingAsleep s → s.destructor.notified = true →
      ∀ i, s.worker i ≠ .blocked) ∧
    (∀ s t, (pool size κ τ).Reachable s → (pool size κ τ).step s .notifyAll = some t →
      ((∀ as u, (pool size κ τ).runFrom t as = some u → ∀ i, u.worker i ≠ .blocked) ↔
        ∀ i, s.worker i ≠ .waiting)) := by
  constructor
  · intro s h hn i
    exact (reachableBy_awake h hn i).2
  · intro s t hr hst
    have ht := step_trans hst
    cases ht with
    | notifyAll hd =>
        constructor
        · intro hall i hpc
          have hi : cvTask.notifyAll s.worker i = .waiting := by
            simp [CondVar.notifyAll, hpc, cvTask]
          exact hall _ _ (runFrom_block hi) i (by simp)
        · intro hnone as u hrun i
          have hawake := awake_runFrom (hr.step hst) (fun _ => awake_notifyAll hnone) rfl hrun
          exact (hawake.1 hawake.2 i).2

/-- `NoneFallingAsleep` over the workers that exist. -/
def noneFallingAsleep (s : State Unit ℕ) : Act Unit ℕ → Bool
  | .notifyAll => (List.range s.created).all (fun i => s.worker i ≠ .waiting)
  | _ => true

theorem noneFallingAsleep_sound {s : State Unit ℕ} {a : Act Unit ℕ} (hlife : Life s)
    (h : noneFallingAsleep s a = true) : NoneFallingAsleep s a := by
  rintro rfl i hi
  have hlt := hlife.lt_created (by rw [hi]; nofun)
  have hne := List.all_eq_true.1 h i (List.mem_range.2 hlt)
  exact of_decide_eq_true hne hi

/-- The first worker sleeps, and the second has locked `m_lock` and evaluates the predicate
after the store. -/
def oneAsleep : List (Act Unit ℕ) :=
  List.replicate 5 .construct ++ List.replicate 4 (.worker 0) ++ List.replicate 2 (.worker 1) ++
    [.destroy, .store, .worker 1]

theorem shutdown_wakes_all_iff_oneAsleep :
    ∃ s t, (pool 2 Unit ℕ).ReachableBy NoneFallingAsleep s ∧ s.worker 0 = .blocked ∧
      (pool 2 Unit ℕ).step s .notifyAll = some t ∧ (∀ i, t.worker i ≠ .blocked) ∧
      ∀ as u, (pool 2 Unit ℕ).runFrom t as = some u → ∀ i, u.worker i ≠ .blocked := by
  have hrun : ((pool 2 Unit ℕ).checkedFrom noneFallingAsleep (pool 2 Unit ℕ).init oneAsleep).map
      (fun s => ((s.destructor, s.worker 0), s.worker 1, s.created)) =
        some ((.notifying, .blocked), .check, 2) := by decide +kernel
  obtain ⟨s, hs, hv⟩ := Machine.reachableBy_of_checked hrun
  obtain ⟨hfirst, hsecond⟩ := Prod.mk.inj hv
  obtain ⟨hd, hblocked⟩ := Prod.mk.inj hfirst
  obtain ⟨hcheck, hcreated⟩ := Prod.mk.inj hsecond
  have hby := hs.mono_reachable (fun s a hr => noneFallingAsleep_sound (reachable_life hr))
  have hnone : NoneFallingAsleep s .notifyAll := by
    refine noneFallingAsleep_sound (reachable_life hs.reachable) ?_
    simp [noneFallingAsleep, hcreated, List.range_succ, hblocked, hcheck]
  have hst : (pool 2 Unit ℕ).step s .notifyAll =
      some { s with worker := cvTask.notifyAll s.worker, destructor := .joining 0 } := by
    simp [pool, step, destructorStep, hd]
  exact ⟨s, _, hby, hblocked, hst, shutdown_wakes_all_iff.1 _ (hby.step hnone hst) rfl,
    (shutdown_wakes_all_iff.2 s _ hs.reachable hst).2 (hnone rfl)⟩

/-- One worker finds the queue empty; the destructor stores and notifies; the
worker blocks. -/
def sleepingWorker : List (Act (Fin 1) ℕ) :=
  [.construct, .construct, .construct, .worker 0, .worker 0, .worker 0, .destroy, .store,
    .notifyAll, .worker 0]

theorem sleepingWorker_blocked : ∃ s, (pool 1 (Fin 1) ℕ).run sleepingWorker = some s ∧
    s.destructor.notified = true ∧ s.worker 0 = .blocked ∧ (∀ k, s.committer k = .idle) ∧
    (pool 1 (Fin 1) ℕ).step s .join = none := by
  have hrun : ((pool 1 (Fin 1) ℕ).run sleepingWorker).map (fun s =>
      (s.destructor.notified, s.worker 0, s.committer 0, (step s .join).isNone)) =
      some (true, .blocked, .idle, true) := by decide +kernel
  obtain ⟨s, hs, _, hv⟩ := Machine.reachable_of_run_map hrun
  simp only [Prod.mk.injEq] at hv
  obtain ⟨hn, hb, hk, hjoin⟩ := hv
  refine ⟨s, hs, hn, hb, fun k => ?_, Option.isNone_iff_eq_none.1 hjoin⟩
  rwa [Fin.fin_one_eq_zero k]

end Londa.Threadpool
