import Londa.FixedThreadPoolDelivery

/-!
# No wakeup of the fixed thread pool is lost

Both flags that a worker tests before `cond_.wait` change only under `mtx_`, so a
worker about to block still sees an empty queue and no shutdown (`Sleep.waiting`).
A task is therefore never queued behind sleeping workers only, unless its
`notify_one` is still to come, and no worker falls asleep after shutdown.
-/

namespace Londa.FixedThreadPool

variable {n : ℕ} {κ τ : Type*}

/-- The worker is neither blocked in `cond_.wait` nor exited. -/
def WorkerPc.active : WorkerPc τ → Bool
  | .blocked => false
  | .exited => false
  | _ => true

def WorkerPc.inside : WorkerPc τ → Bool
  | .head => true
  | .popped _ _ => true
  | .waiting => true
  | .leaving => true
  | _ => false

def CallerPc.inside : CallerPc τ → Bool
  | .holding _ => true
  | _ => false

def CallerPc.pending : CallerPc τ → Bool
  | .notifying => true
  | _ => false

def DestructorPc.inside : DestructorPc → Bool
  | .holding => true
  | _ => false

/-- The threads between the acquisition and the release of `mtx_`. -/
def State.inside (s : State n κ τ) : Thread n κ → Bool
  | .worker i => (s.worker i).inside
  | .caller k => (s.caller k).inside
  | .destructor => s.destructor.inside

section Guard

variable {s t : State n κ τ}

theorem inside_worker_ne {i : Fin n} {p : WorkerPc τ} (hw : t.worker = Function.update s.worker i p)
    (hc : t.caller = s.caller) (hd : t.destructor = s.destructor) (th : Thread n κ)
    (hne : th ≠ .worker i) : t.inside th = s.inside th := by
  cases th with
  | worker j =>
      have hj : j ≠ i := fun he => hne (by rw [he])
      simp only [State.inside, hw, Function.update_of_ne hj]
  | caller k => simp only [State.inside, hc]
  | destructor => simp only [State.inside, hd]

theorem inside_caller_ne [DecidableEq κ] {k : κ} {p : CallerPc τ}
    (hw : ∀ i, (t.worker i).inside = (s.worker i).inside)
    (hc : t.caller = Function.update s.caller k p) (hd : t.destructor = s.destructor)
    (th : Thread n κ) (hne : th ≠ .caller k) : t.inside th = s.inside th := by
  cases th with
  | worker j => exact hw j
  | caller l =>
      have hl : l ≠ k := fun he => hne (by rw [he])
      simp only [State.inside, hc, Function.update_of_ne hl]
  | destructor => simp only [State.inside, hd]

theorem inside_destructor_ne (hw : ∀ i, (t.worker i).inside = (s.worker i).inside)
    (hc : t.caller = s.caller) (th : Thread n κ) (hne : th ≠ .destructor) :
    t.inside th = s.inside th := by
  cases th with
  | worker j => exact hw j
  | caller k => simp only [State.inside, hc]
  | destructor => exact absurd rfl hne

theorem inside_congr (hw : ∀ i, (t.worker i).inside = (s.worker i).inside)
    (hc : ∀ k, (t.caller k).inside = (s.caller k).inside)
    (hd : t.destructor.inside = s.destructor.inside) (th : Thread n κ) :
    t.inside th = s.inside th := by
  cases th with
  | worker i => exact hw i
  | caller k => exact hc k
  | destructor => exact hd

theorem guarded_step [DecidableEq κ] (ht : Trans s t) (h : Guarded s.inside s.mtx) :
    Guarded t.inside t.mtx := by
  cases ht with
  | lock i hpc hfree =>
      rw [hfree] at h
      apply h.acquire (i := .worker i)
      · simp [State.inside, WorkerPc.inside]
      · exact inside_worker_ne rfl rfl rfl
  | unlock i k x hpc | block i hpc | exit i hpc =>
      apply h.release (i := .worker i) (by simp [State.inside, WorkerPc.inside, hpc])
      · simp [State.inside, WorkerPc.inside]
      · exact inside_worker_ne rfl rfl rfl
  | pop i x rest hpc hq | leave i hpc hq hd | wait i hpc hq hd | call i k x hpc
  | spurious i hpc =>
      exact h.congr
        (inside_congr (update_frame WorkerPc.inside (by rw [hpc]; rfl)) (fun _ => rfl) rfl)
  | lockCaller k x hpc hfree =>
      rw [hfree] at h
      apply h.acquire (i := .caller k)
      · simp [State.inside, CallerPc.inside]
      · exact inside_caller_ne (fun _ => rfl) rfl rfl
  | push k x hpc =>
      apply h.release (i := .caller k) (by simp [State.inside, CallerPc.inside, hpc])
      · simp [State.inside, CallerPc.inside]
      · exact inside_caller_ne (fun _ => rfl) rfl rfl
  | execute k x hd hpc =>
      exact h.congr
        (inside_congr (fun _ => rfl) (update_frame CallerPc.inside (by rw [hpc]; rfl)) rfl)
  | notifyOne k w pc hpc hw =>
      exact h.congr (inside_congr (cond.notifyOne_frame WorkerPc.inside (cond_wake_frame _ rfl) hw)
        (update_frame CallerPc.inside (by rw [hpc]; rfl)) rfl)
  | destroy hd hk => exact h.congr (inside_congr (fun _ => rfl) (fun _ => rfl) (by rw [hd]; rfl))
  | lockDestructor hd hfree =>
      rw [hfree] at h
      apply h.acquire (i := .destructor)
      · rfl
      · exact inside_destructor_ne (fun _ => rfl) rfl
  | shutdown hd =>
      exact h.release (i := .destructor) (by simp [State.inside, DestructorPc.inside, hd]) rfl
        (inside_destructor_ne (fun _ => rfl) rfl)
  | notifyAll hd =>
      have hframe := cond.notifyAll_frame WorkerPc.inside (cond_wake_frame _ rfl) s.worker
      exact h.congr (inside_congr hframe (fun _ => rfl) (by rw [hd]; rfl))

end Guard

structure Sleep (s : State n κ τ) : Prop where
  guarded : Guarded s.inside s.mtx
  shutdown : s.isShutdown = true ↔ s.destructor = .notifying ∨ s.destructor = .done
  waiting : ∀ i, s.worker i = .waiting → s.queue.tasks = [] ∧ s.isShutdown = false
  pending : s.queue.tasks ≠ [] →
    (∃ i, (s.worker i).active = true) ∨ ∃ k, (s.caller k).pending = true
  awake : s.destructor = .done → ∀ i, s.worker i ≠ .blocked

namespace Sleep

theorem initial : Sleep (initial n κ τ) := by
  constructor <;> simp [FixedThreadPool.initial, WorkQueue.empty, Guarded, State.inside,
    WorkerPc.inside, CallerPc.inside, DestructorPc.inside]
  intro th
  cases th <;> rfl

variable {s t : State n κ τ}

/-- While some other thread is inside, no worker is about to block. -/
theorem not_waiting (h : Sleep s) {th : Thread n κ} (hth : s.inside th = true) {i : Fin n}
    (hne : th ≠ .worker i) : s.worker i ≠ .waiting := by
  intro hpc
  have hi : s.inside (.worker i) = true := by simp [State.inside, hpc, WorkerPc.inside]
  exact hne (h.guarded.unique hth hi)

variable [DecidableEq κ]

theorem step_shutdown (ht : Trans s t) (h : Sleep s) :
    t.isShutdown = true ↔ t.destructor = .notifying ∨ t.destructor = .done := by
  have hs := h.shutdown
  cases ht <;> first | exact hs | simp_all

theorem step_waiting (ht : Trans s t) (h : Sleep s) :
    ∀ i, t.worker i = .waiting → t.queue.tasks = [] ∧ t.isShutdown = false := by
  intro j hj
  cases ht with
  | wait i hpc hq hd => exact ⟨hq, hd⟩
  | pop i x rest hpc hq =>
      have hi : s.inside (.worker i) = true := by simp [State.inside, hpc, WorkerPc.inside]
      by_cases hji : j = i
      · subst j
        simp at hj
      · have hw : s.worker j = .waiting := by simpa [hji] using hj
        exact absurd hw (h.not_waiting hi (by simp [Ne.symm hji]))
  | lock i hpc hfree | leave i hpc hq hd | unlock i k x hpc | call i k x hpc | block i hpc
  | exit i hpc | spurious i hpc =>
      by_cases hji : j = i
      · subst j
        simp at hj
      · exact h.waiting j (by simpa [hji] using hj)
  | push k x hpc =>
      have hk : s.inside (.caller k) = true := by simp [State.inside, hpc, CallerPc.inside]
      exact absurd hj (h.not_waiting hk (by simp))
  | shutdown hd =>
      have hx : s.inside .destructor = true := by simp [State.inside, hd, DestructorPc.inside]
      exact absurd hj (h.not_waiting hx (by simp))
  | notifyOne k w pc hpc hw =>
      exact h.waiting j (cond.notifyOne_eq hw (by simp [cond]) hj)
  | notifyAll hd =>
      exact h.waiting j (cond.notifyAll_eq (by simp [cond]) hj)
  | execute k x hd hpc | lockCaller k x hpc hfree | destroy hd hk | lockDestructor hd hfree =>
      exact h.waiting j hj

theorem active_of_not_blocked {p : WorkerPc τ} (hb : cond.blocked p = false)
    (hl : p.left = false) : p.active = true := by
  cases p with
  | blocked => cases hb
  | exited => cases hl
  | _ => rfl

/-- A queued task finds an active worker or an outstanding notification. -/
theorem step_pending (hn : 1 ≤ n) (ht : Trans s t) (hc : Closing t) (h : Sleep s) :
    t.queue.tasks ≠ [] → (∃ i, (t.worker i).active = true) ∨ ∃ k, (t.caller k).pending = true := by
  intro hq
  have hleft := hc.not_left_of_tasks hq
  cases ht with
  | pop i x rest hpc _ => exact Or.inl ⟨i, by simp [WorkerPc.active]⟩
  | spurious i hpc => exact Or.inl ⟨i, by simp [WorkerPc.active]⟩
  | block i hpc => exact absurd (h.waiting i hpc).1 hq
  | exit i hpc =>
      have hi := hleft i
      simp [WorkerPc.left] at hi
  | lock i hpc hfree | leave i hpc hq' hd | wait i hpc hq' hd | unlock i k x hpc
  | call i k x hpc =>
      rcases h.pending hq with ⟨j, hj⟩ | hk
      · exact Or.inl ⟨j, (update_frame WorkerPc.active (by rw [hpc]; rfl) j).trans hj⟩
      · exact Or.inr hk
  | push k x hpc => exact Or.inr ⟨k, by simp [CallerPc.pending]⟩
  | execute k x hd hpc | lockCaller k x hpc hfree =>
      rcases h.pending hq with hi | ⟨l, hl⟩
      · exact Or.inl hi
      · exact Or.inr ⟨l, (update_frame CallerPc.pending (by rw [hpc]; rfl) l).trans hl⟩
  | notifyOne k w pc hpc hw =>
      have hts : (Finset.univ : Finset (Fin n)).Nonempty := ⟨⟨0, hn⟩, Finset.mem_univ _⟩
      obtain ⟨i, _, hi⟩ := cond.notifyOne_awake hts hw
      exact Or.inl ⟨i, active_of_not_blocked hi (hleft i)⟩
  | notifyAll hd =>
      have hawake := cond.notifyAll_not_blocked s.worker ⟨0, hn⟩
      exact Or.inl ⟨⟨0, hn⟩, active_of_not_blocked hawake (hleft _)⟩
  | destroy hd hk | lockDestructor hd hfree | shutdown hd => exact h.pending hq

theorem step_awake (ht : Trans s t) (h : Sleep s) :
    t.destructor = .done → ∀ i, t.worker i ≠ .blocked := by
  intro hdone j hj
  cases ht with
  | block i hpc =>
      have hd : s.isShutdown = true := h.shutdown.2 (Or.inr hdone)
      rw [(h.waiting i hpc).2] at hd
      cases hd
  | notifyAll hd =>
      have hb := cond.notifyAll_not_blocked s.worker j
      rw [show cond.notifyAll s.worker j = .blocked from hj] at hb
      cases hb
  | notifyOne k w pc hpc hw =>
      exact h.awake hdone j (cond.notifyOne_eq hw (by simp [cond]) hj)
  | lock i hpc hfree | pop i x rest hpc hq | leave i hpc hq hd | wait i hpc hq hd
  | unlock i k x hpc | call i k x hpc | exit i hpc | spurious i hpc =>
      by_cases hji : j = i
      · subst j
        simp at hj
      · exact h.awake hdone j (by simpa [hji] using hj)
  | execute k x hd hpc | lockCaller k x hpc hfree | push k x hpc => exact h.awake hdone j hj
  | destroy hd hk | lockDestructor hd hfree | shutdown hd => cases hdone

end Sleep

/-- A worker outside `cond_.wait` that has not exited can step, or `mtx_` is taken. -/
theorem workerStep_stuck {s : State n κ τ} {i : Fin n} (h : workerStep s i = none) :
    s.worker i = .exited ∨ s.worker i = .blocked ∨ (s.worker i = .locking ∧ s.mtx ≠ none) := by
  unfold workerStep at h
  split at h
  case h_1 hpc =>
    split_ifs at h with hfree
    exact Or.inr (Or.inr ⟨hpc, hfree⟩)
  case h_2 hpc => split at h <;> [cases h; split_ifs at h]
  case h_7 hpc => exact Or.inr (Or.inl hpc)
  case h_8 hpc => exact Or.inl hpc
  all_goals cases h

/-- After the destructor, a state in which no worker can step has no thread inside. -/
theorem Sleep.mtx_free_of_stuck {s : State n κ τ} (h : Sleep s) (hc : Closing s)
    (hdone : s.destructor = .done) (hstuck : ∀ i, workerStep s i = none) : s.mtx = none := by
  apply h.guarded.owner_none
  intro th
  cases th with
  | worker i =>
      rcases workerStep_stuck (hstuck i) with hi | hi | ⟨hi, _⟩ <;>
        simp [State.inside, hi, WorkerPc.inside]
  | caller k =>
      have hk := hc.quiet (by simp [hdone]) k
      cases hpc : s.caller k with
      | holding x =>
          rw [hpc] at hk
          cases hk
      | idle | locking _ | notifying => simp [State.inside, hpc, CallerPc.inside]
  | destructor => simp [State.inside, hdone, DestructorPc.inside]

section Run

variable [DecidableEq κ] [Fintype κ]

theorem reachable_sleep (hn : 1 ≤ n) {s : State n κ τ} (h : (pool n κ τ).Reachable s) :
    Sleep s := by
  refine h.invariant Sleep.initial (fun hr hi hst => ?_)
  have ht := step_trans hst
  exact ⟨guarded_step ht hi.guarded, hi.step_shutdown ht, hi.step_waiting ht,
    hi.step_pending hn ht (reachable_closing (hr.step hst)), hi.step_awake ht⟩

/-- A queued task with no outstanding `notify_one` finds a worker that is neither
blocked nor exited; after `notify_all` no worker is blocked; and a state after
the destructor in which no worker can step is the end of every worker. -/
theorem no_lost_wakeup (hn : 1 ≤ n) {s : State n κ τ} (h : (pool n κ τ).Reachable s) :
    (s.queue.tasks ≠ [] → (∀ k, s.caller k ≠ .notifying) →
      ∃ i, s.worker i ≠ .blocked ∧ s.worker i ≠ .exited) ∧
    (s.destructor = .done → ∀ i, s.worker i ≠ .blocked) ∧
    (s.destructor = .done → (∀ i, (pool n κ τ).step s (.worker i) = none) →
      (∀ i, s.worker i = .exited) ∧ s.queue.tasks = []) := by
  have hs := reachable_sleep hn h
  have hc := reachable_closing h
  refine ⟨?_, hs.awake, ?_⟩
  · intro hq hk
    rcases hs.pending hq with ⟨i, hi⟩ | ⟨k, hp⟩
    · refine ⟨i, ?_, ?_⟩ <;> intro hpc <;> simp [hpc, WorkerPc.active] at hi
    · cases hpc : s.caller k <;> simp [hpc, CallerPc.pending] at hp
      exact absurd hpc (hk k)
  · intro hdone hstuck
    have hfree := hs.mtx_free_of_stuck hc hdone hstuck
    have hall : ∀ i, s.worker i = .exited := by
      intro i
      rcases workerStep_stuck (hstuck i) with hi | hi | ⟨_, hi⟩
      · exact hi
      · exact absurd hi (hs.awake hdone i)
      · exact absurd hfree hi
    exact ⟨hall, (hc.left ⟨0, hn⟩ (by simp [hall, WorkerPc.left])).2⟩

/-- The second worker sleeps while the first has been woken for the task, and at the end
both have left. -/
theorem no_lost_wakeup_twoTasks :
    (∃ s, (pool 2 Bool ℕ).run oneAwake = some s ∧ (∃ i, s.worker i = .blocked) ∧
      ∃ i, s.worker i ≠ .blocked ∧ s.worker i ≠ .exited) ∧
    ∃ s, (pool 2 Bool ℕ).run twoTasks = some s ∧ s.destructor = .done ∧
      (∀ i, s.worker i = .exited) ∧ s.queue.tasks = [] := by
  constructor
  · have hrun : ((pool 2 Bool ℕ).run oneAwake).map (fun s =>
        ((s.queue.tasks, s.worker ⟨1, Nat.one_lt_two⟩), s.caller false, s.caller true)) =
          some (([7], .blocked), .idle, .idle) := by decide +kernel
    obtain ⟨s, hs, hr, hv⟩ := Machine.reachable_of_run_map hrun
    obtain ⟨hpool, hcallers⟩ := Prod.mk.inj hv
    obtain ⟨hq, hblocked⟩ := Prod.mk.inj hpool
    obtain ⟨hfirst, hsecond⟩ := Prod.mk.inj hcallers
    refine ⟨s, hs, ⟨_, hblocked⟩, (no_lost_wakeup (by decide) hr).1 (by simp [hq]) (fun k => ?_)⟩
    cases k with
    | false => simp [hfirst]
    | true => simp [hsecond]
  · have hrun : ((pool 2 Bool ℕ).run twoTasks).map (fun s =>
        (s.destructor, (workerStep s ⟨0, Nat.zero_lt_two⟩).isNone,
          (workerStep s ⟨1, Nat.one_lt_two⟩).isNone)) = some (.done, true, true) := by
      decide +kernel
    obtain ⟨s, hs, hr, hv⟩ := Machine.reachable_of_run_map hrun
    obtain ⟨hdone, hnone⟩ := Prod.mk.inj hv
    have hstuck : ∀ i, (workerStep s i).isNone = true := Fin.forall_fin_two.2 (Prod.mk.inj hnone)
    exact ⟨s, hs, hdone, (no_lost_wakeup (by decide) hr).2.2 hdone
      (fun i => Option.isNone_iff_eq_none.1 (hstuck i))⟩

end Run

end Londa.FixedThreadPool
