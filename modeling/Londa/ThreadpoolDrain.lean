import Londa.Threadpool

/-!
# Shutdown of the thread pool and the tasks still queued

The loop of a worker has two exits. `stoped && tasks.empty()` drains the queue;
`while(!stoped)` does not look at it. The queue is empty and every committed task
has run once when all workers are joined, exactly in the runs in which the last
worker does not take the second exit with tasks still queued.
-/

namespace Londa.Threadpool

variable {κ τ : Type*}

/-- The ticket and the task a worker holds from its pop to the end of `task()`. -/
def WorkerPc.current : WorkerPc τ → Option (ℕ × τ)
  | .popped k t => some (k, t)
  | .taken k t => some (k, t)
  | .running k t => some (k, t)
  | _ => none

/-- The worker has left its loop. -/
def WorkerPc.left : WorkerPc τ → Bool
  | .returning => true
  | .exited => true
  | _ => false

variable [DecidableEq κ] {s t : State κ τ} {a : Act κ τ}

/-- The counter of a worker changes by its own step, by a wakeup, or when the
constructor creates the worker. -/
theorem trans_worker (ht : Trans s a t) (i : ℕ) :
    t.worker i = s.worker i ∨ a = .worker i ∨ (s.worker i = .blocked ∧ t.worker i = .relocking) ∨
      (i = s.created ∧ t.created = s.created + 1 ∧ t.worker i = .test) := by
  cases ht with
  | emplace size hc =>
      by_cases hi : i = s.created
      · exact Or.inr (Or.inr (Or.inr ⟨hi, rfl, by simp [hi]⟩))
      · exact Or.inl (by simp [hi])
  | spurious j hpc =>
      by_cases hi : i = j
      · subst i
        exact Or.inr (Or.inr (Or.inl ⟨hpc, by simp⟩))
      · exact Or.inl (by simp [hi])
  | notifyOne k w pc hpc hw =>
      rcases cvTask.notifyOne_eq_some hw with ⟨j, _, hb, rfl⟩ | ⟨_, rfl⟩
      · by_cases hi : i = j
        · subst i
          have hj : s.worker j = .blocked := by cases hp : s.worker j <;> simp [hp, cvTask] at hb ⊢
          exact Or.inr (Or.inr (Or.inl ⟨hj, by simp [cvTask]⟩))
        · exact Or.inl (by simp [hi])
      · exact Or.inl rfl
  | notifyAll hd =>
      cases hp : s.worker i with
      | blocked => exact Or.inr (Or.inr (Or.inl ⟨rfl, by simp [CondVar.notifyAll, hp, cvTask]⟩))
      | _ => exact Or.inl (by simp [CondVar.notifyAll, hp, cvTask])
  | stop j hpc hd | loop j hpc hd | lock j hpc hfree | go j hpc hp | wait j hpc hd hq | block j hpc
  | relock j hpc hfree | leave j hpc hq hd | fault j hpc hq hd | pop j x rest hpc hq
  | unlock j k x hpc | decrease j k x hpc | call j k x hpc | increase j hpc | exit j hpc =>
      by_cases hi : i = j
      · exact Or.inr (Or.inl (by rw [hi]))
      · exact Or.inl (by simp [hi])
  | more size hc hlt | constructed size hc hge | reject k x hc hd hpc hs | commit k x hc hd hpc hs
  | lockCommitter k x hpc hfree | push k x hpc | destroy hc hd hk | store hd | join j hd hj hpc
  | joined j hd hj => exact Or.inl rfl

theorem trans_stoped (ht : Trans s a t) (h : s.stoped = true) : t.stoped = true := by
  cases ht <;> first | exact h | rfl

theorem trans_created (ht : Trans s a t) : s.created ≤ t.created := by
  cases ht <;> first | exact le_rfl | exact Nat.le_succ _

structure Life (s : State κ τ) : Prop where
  unborn : ∀ i, s.created ≤ i → s.worker i = .unborn
  first : s.created = 0 → 0 < s.idlThrNum ∧ (s.ctor = .test 0 ∨ s.ctor = .emplace 0)
  stoped : s.stoped = true ↔ s.destructor ≠ .alive ∧ s.destructor ≠ .storing
  quiet : s.destructor ≠ .alive → s.ctor = .done ∧ ∀ k, (s.committer k).busy = false
  left : ∀ i, (s.worker i).left = true → s.stoped = true
  joining : ∀ j, s.destructor = .joining j → ∀ i < j, s.worker i = .exited
  joined : s.destructor = .joined → ∀ i < s.created, s.worker i = .exited

namespace Life

omit [DecidableEq κ] in
theorem initial (size : ℕ) : Life (initial size κ τ) := by
  constructor <;> simp [Threadpool.initial, WorkerPc.left]
  split_ifs <;> omega

omit [DecidableEq κ] in
theorem lt_created (h : Life s) {i : ℕ} (hi : s.worker i ≠ .unborn) : i < s.created := by
  by_contra hge
  exact hi (h.unborn i (not_lt.1 hge))

omit [DecidableEq κ] in
/-- A pool whose destructor has been entered has a worker. -/
theorem created_pos (h : Life s) (hne : s.destructor ≠ .alive) : 0 < s.created := by
  by_contra hz
  have hc := (h.first (by omega)).2
  rw [(h.quiet hne).1] at hc
  simp at hc

theorem step_unborn (ht : Trans s a t) (h : Life s) :
    ∀ i, t.created ≤ i → t.worker i = .unborn := by
  intro i hi
  have hs : s.worker i = .unborn := h.unborn i ((trans_created ht).trans hi)
  rcases trans_worker ht i with he | rfl | ⟨hb, _⟩ | ⟨rfl, he, _⟩
  · rw [he, hs]
  · cases ht <;> simp_all
  · rw [hs] at hb
    cases hb
  · omega

theorem step_exited (ht : Trans s a t) (h : Life s) {i : ℕ} (hi : s.worker i = .exited) :
    t.worker i = .exited := by
  rcases trans_worker ht i with he | rfl | ⟨hb, _⟩ | ⟨rfl, _, _⟩
  · rw [he, hi]
  · cases ht <;> simp_all
  · rw [hi] at hb
    cases hb
  · rw [h.unborn _ le_rfl] at hi
    cases hi

theorem step_left (ht : Trans s a t) (h : Life s) :
    ∀ i, (t.worker i).left = true → t.stoped = true := by
  intro i hi
  have hold : (s.worker i).left = true → t.stoped = true :=
    fun hl => trans_stoped ht (h.left i hl)
  rcases trans_worker ht i with he | rfl | ⟨_, he⟩ | ⟨_, _, he⟩
  · rw [he] at hi
    exact hold hi
  · cases ht with
    | stop _ hpc hd => exact hd
    | leave _ hpc hq hd => exact hd
    | exit _ hpc => exact hold (by rw [hpc]; rfl)
    | _ => simp [WorkerPc.left] at hi
  · rw [he] at hi
    cases hi
  · rw [he] at hi
    cases hi

theorem step_first (ht : Trans s a t) (h : Life s) (ht0 : t.created = 0) :
    0 < t.idlThrNum ∧ (t.ctor = .test 0 ∨ t.ctor = .emplace 0) := by
  have hs0 : s.created = 0 := Nat.le_zero.1 (ht0 ▸ trans_created ht)
  obtain ⟨hidl, hctor⟩ := h.first hs0
  have hun : ∀ i, s.worker i = .unborn := fun i => h.unborn i (by omega)
  cases ht <;> simp_all

theorem step_stoped (ht : Trans s a t) (h : Life s) :
    t.stoped = true ↔ t.destructor ≠ .alive ∧ t.destructor ≠ .storing := by
  have hs := h.stoped
  cases ht <;> simp_all

theorem step_quiet (ht : Trans s a t) (h : Life s) :
    t.destructor ≠ .alive → t.ctor = .done ∧ ∀ k, (t.committer k).busy = false := by
  intro hne
  have hq := h.quiet
  cases ht with
  | lockCommitter k x hpc hfree | push k x hpc | notifyOne k w pc hpc hw =>
      have hk := (hq hne).2 k
      rw [hpc] at hk
      cases hk
  | commit k x hc hd hpc hs => exact absurd hd hne
  | destroy hc hd hk => exact ⟨hc, hk⟩
  | more size hc hlt | constructed size hc hge | emplace size hc =>
      rw [(hq hne).1] at hc
      cases hc
  | store hd | notifyAll hd | join j hd hj hpc | joined j hd hj => exact hq (by simp [hd])
  | _ => exact hq hne

theorem step_joining (ht : Trans s a t) (h : Life s) :
    ∀ j, t.destructor = .joining j → ∀ i < j, t.worker i = .exited := by
  intro j hj i hi
  have hkeep := fun hs => h.step_exited ht (i := i) hs
  cases ht with
  | notifyAll hd =>
      have hz : 0 = j := DestructorPc.joining.inj hj
      omega
  | join l hd hl hpc =>
      have hlj : l + 1 = j := DestructorPc.joining.inj hj
      by_cases hil : i = l
      · rw [hil]
        exact hpc
      · exact h.joining l hd i (by omega)
  | joined l hd hl => cases hj
  | destroy hc hd hk => cases hj
  | store hd => cases hj
  | _ => exact hkeep (h.joining j hj i hi)

theorem step_joined (ht : Trans s a t) (h : Life s) :
    t.destructor = .joined → ∀ i < t.created, t.worker i = .exited := by
  intro hj i hi
  have hkeep := fun hs => h.step_exited ht (i := i) hs
  cases ht with
  | joined l hd hl => exact h.joining l hd i (by change i < s.created at hi; omega)
  | emplace size hc =>
      have hq := (h.quiet (by rw [show s.destructor = .joined from hj]; simp)).1
      rw [hc] at hq
      cases hq
  | notifyAll hd => cases hj
  | join l hd hl hpc => cases hj
  | destroy hc hd hk => cases hj
  | store hd => cases hj
  | _ => exact hkeep (h.joined hj i hi)

theorem step (ht : Trans s a t) (h : Life s) : Life t :=
  ⟨h.step_unborn ht, h.step_first ht, h.step_stoped ht, h.step_quiet ht, h.step_left ht,
    h.step_joining ht, h.step_joined ht⟩

end Life

theorem ledger_step (ht : Trans s a t) (hun : s.worker s.created = .unborn)
    (h : s.queue.Ledger (fun i => (s.worker i).current)) :
    t.queue.Ledger (fun i => (t.worker i).current) := by
  cases ht with
  | pop i x rest hpc hq =>
      apply h.pop (by rw [hpc]; rfl) hq
      · simp [WorkerPc.current]
      · intro j hj
        simp [hj]
  | call i k x hpc =>
      apply h.call (by rw [hpc]; rfl)
      · simp [WorkerPc.current]
      · intro j hj
        simp [hj]
  | push k x hpc => exact h.push x
  | emplace size hc => exact h.congr (update_frame WorkerPc.current (by rw [hun]; rfl))
  | notifyOne k w pc hpc hw =>
      exact h.congr (cvTask.notifyOne_frame WorkerPc.current (cvTask_wake_frame _ rfl) hw)
  | notifyAll hd =>
      exact h.congr (cvTask.notifyAll_frame WorkerPc.current (cvTask_wake_frame _ rfl) s.worker)
  | stop i hpc hd | loop i hpc hd | lock i hpc hfree | go i hpc hp | wait i hpc hd hq | block i hpc
  | relock i hpc hfree | leave i hpc hq hd | fault i hpc hq hd | unlock i k x hpc
  | decrease i k x hpc | increase i hpc | exit i hpc | spurious i hpc =>
      exact h.congr (update_frame WorkerPc.current (by rw [hpc]; rfl))
  | more size hc hlt | constructed size hc hge | reject k x hc hd hpc hs | commit k x hc hd hpc hs
  | lockCommitter k x hpc hfree | destroy hc hd hk | store hd | join j hd hj hpc
  | joined j hd hj => exact h

/-- A worker that leaves through `while(!stoped)` with tasks still queued is not
the last one: another worker has not left its loop. -/
def LastDrains (s : State κ τ) (a : Act κ τ) : Prop :=
  ∀ i, a = .worker i → s.worker i = .test → s.stoped = true → s.queue.tasks ≠ [] →
    ∃ j < s.created, j ≠ i ∧ (s.worker j).left = false

/-- All workers have left after shutdown. -/
def Deserted (s : State κ τ) : Prop :=
  s.stoped = true ∧ ∀ i < s.created, (s.worker i).left = true

/-- A step that ends with all workers gone either starts there, or is the last
worker leaving; a drain of the queue is the only way it can be unmarked. -/
theorem deserted_step (ht : Trans s a t) (h : Life s) (hd : Deserted t) :
    (Deserted s ∧ t.queue.tasks = s.queue.tasks) ∨ t.queue.tasks = [] ∨
      (∃ i, a = .worker i ∧ s.worker i = .test ∧ s.stoped = true ∧
        t.queue = s.queue ∧ ∀ j < s.created, j ≠ i → (s.worker j).left = true) := by
  obtain ⟨hst, hall⟩ := hd
  cases ht with
  | stop i hpc hs =>
      refine Or.inr (Or.inr ⟨i, rfl, hpc, hs, rfl, fun j hj hne => ?_⟩)
      simpa [hne] using hall j hj
  | leave i hpc hq hs => exact Or.inr (Or.inl hq)
  | exit i hpc =>
      have hl : ∀ j, (Function.update s.worker i .exited j).left = (s.worker j).left :=
        update_frame WorkerPc.left (by rw [hpc]; rfl)
      exact Or.inl ⟨⟨hst, fun j hj => (hl j).symm.trans (hall j hj)⟩, rfl⟩
  | loop i hpc hs | lock i hpc hfree | go i hpc hp | wait i hpc hs hq | block i hpc
  | relock i hpc hfree | fault i hpc hq hs | pop i x rest hpc hq | unlock i k x hpc
  | decrease i k x hpc | call i k x hpc | increase i hpc | spurious i hpc =>
      have hi := hall i (h.lt_created (by simp [hpc]))
      simp [WorkerPc.left] at hi
  | emplace size hc =>
      have hi := hall s.created (Nat.lt_succ_self _)
      simp [WorkerPc.left] at hi
  | push k x hpc =>
      have hk := (h.quiet (h.stoped.1 hst).1).2 k
      rw [hpc] at hk
      cases hk
  | store hs =>
      have hpos := h.created_pos (by simp [hs])
      exact absurd hs (h.stoped.1 (h.left 0 (hall 0 hpos))).2
  | notifyOne k w pc hpc hw =>
      have hl := cvTask.notifyOne_frame WorkerPc.left (cvTask_wake_frame _ rfl) hw
      exact Or.inl ⟨⟨hst, fun j hj => (hl j).symm.trans (hall j hj)⟩, rfl⟩
  | notifyAll hs =>
      have hl := cvTask.notifyAll_frame WorkerPc.left (cvTask_wake_frame _ rfl) s.worker
      exact Or.inl ⟨⟨hst, fun j hj => (hl j).symm.trans (hall j hj)⟩, rfl⟩
  | more size hc hlt | constructed size hc hge | reject k x hc hs hpc hr | commit k x hc hs hpc hr
  | lockCommitter k x hpc hfree | destroy hc hs hk | join j hs hj hpc
  | joined j hs hj => exact Or.inl ⟨⟨hst, hall⟩, rfl⟩

/-- Once all workers have left, nobody takes a queued task. -/
theorem deserted_keeps_tasks (ht : Trans s a t) (h : Life s) (hd : Deserted s)
    (hq : s.queue.tasks ≠ []) : Deserted t ∧ t.queue.tasks ≠ [] := by
  obtain ⟨hst, hall⟩ := hd
  have hnot : ∀ i, (s.worker i).left = false → s.worker i = .unborn := by
    intro i hi
    by_contra hne
    rw [hall i (h.lt_created hne)] at hi
    cases hi
  have hdone := (h.quiet (h.stoped.1 hst).1)
  cases ht with
  | exit i hpc =>
      have hl : ∀ j, (Function.update s.worker i .exited j).left = (s.worker j).left :=
        update_frame WorkerPc.left (by rw [hpc]; rfl)
      exact ⟨⟨hst, fun j hj => (hl j).trans (hall j hj)⟩, hq⟩
  | stop i hpc hs | loop i hpc hs | lock i hpc hfree | go i hpc hp | wait i hpc hs hq | block i hpc
  | relock i hpc hfree | leave i hpc hq hs | fault i hpc hq hs | pop i x rest hpc hq
  | unlock i k x hpc | decrease i k x hpc | call i k x hpc | increase i hpc | spurious i hpc =>
      have hi := hnot i (by rw [hpc]; rfl)
      rw [hpc] at hi
      cases hi
  | more size hc hlt | constructed size hc hge | emplace size hc =>
      rw [hdone.1] at hc
      cases hc
  | lockCommitter k x hpc hfree | push k x hpc | notifyOne k w pc hpc hw =>
      have hk := hdone.2 k
      rw [hpc] at hk
      cases hk
  | commit k x hc hs hpc hr => exact absurd hs (h.stoped.1 hst).1
  | notifyAll hs =>
      have hl := cvTask.notifyAll_frame WorkerPc.left (cvTask_wake_frame _ rfl) s.worker
      exact ⟨⟨hst, fun j hj => (hl j).trans (hall j hj)⟩, hq⟩
  | store hs => exact ⟨⟨rfl, hall⟩, hq⟩
  | reject k x hc hs hpc hr | destroy hc hs hk | join j hs hj hpc | joined j hs hj =>
      exact ⟨⟨hst, hall⟩, hq⟩

variable [Fintype κ] {size : ℕ}

theorem reachable_life (h : (pool size κ τ).Reachable s) : Life s :=
  h.invariant (Life.initial size) (fun _ hi hst => hi.step (step_trans hst))

theorem reachable_ledger (h : (pool size κ τ).Reachable s) :
    s.queue.Ledger (fun i => (s.worker i).current) :=
  h.invariant (WorkQueue.Ledger.empty (fun _ => rfl)) (fun hr hi hst =>
    ledger_step (step_trans hst) ((reachable_life hr).unborn _ le_rfl) hi)

theorem drained_of_lastDrains (h : (pool size κ τ).ReachableBy LastDrains s) (hd : Deserted s) :
    s.queue.tasks = [] := by
  revert hd
  apply h.invariant (I := fun s => Deserted s → s.queue.tasks = []) (fun _ => rfl)
  intro s t a hr hi hc hst hd
  have hlife := reachable_life hr.reachable
  rcases deserted_step (step_trans hst) hlife hd with ⟨hs, hq⟩ | hq | ⟨i, rfl, hpc, hs, hq, hall⟩
  · rw [hq, hi hs]
  · exact hq
  · rw [hq]
    by_contra hne
    obtain ⟨j, hj, hji, hl⟩ := hc i rfl hpc hs hne
    rw [hall j hj hji] at hl
    cases hl

theorem mark_of_not_lastDrains (hc : ¬ LastDrains s a)
    (hst : (pool size κ τ).step s a = some t) :
    Deserted t ∧ t.queue.tasks ≠ [] := by
  unfold LastDrains at hc
  push Not at hc
  obtain ⟨i, rfl, hpc, hs, hq, hall⟩ := hc
  have ht : t = s.setWorker i .exited := by
    have he : workerStep s i = some t := hst
    simpa [workerStep, hpc, hs, eq_comm] using he
  subst t
  refine ⟨⟨hs, fun j hj => ?_⟩, hq⟩
  by_cases hji : j = i
  · subst j
    simp [WorkerPc.left]
  · simpa [hji] using hall j hj hji

/-- When all workers are joined, the queue is empty and every committed task has
been called exactly once, if and only if along the run the last worker never left
through `while(!stoped)` with tasks still queued. -/
theorem commit_honoured_iff (as : List (Act κ τ)) (h : (pool size κ τ).run as = some s)
    (hj : s.destructor = .joined) :
    (s.queue.tasks = [] ∧ ∀ k (hk : k < s.queue.submitted.length),
      ∃ c, s.queue.ran.filter (fun c => c.ticket == k) = [c] ∧ c.task = s.queue.submitted[k]) ↔
    (pool size κ τ).Meets LastDrains (pool size κ τ).init as := by
  have hr : (pool size κ τ).Reachable s := Machine.reachable_of_run as h
  have hlife := reachable_life hr
  have hexit := hlife.joined hj
  constructor
  · rintro ⟨hq, _⟩
    refine Machine.Reachable.meets_of_mark (K := fun s => Deserted s ∧ s.queue.tasks ≠ [])
      Machine.ReachableBy.init (fun _ => mark_of_not_lastDrains) ?_ h (fun hm => hm.2 hq)
    intro s t a hr hm hst
    exact deserted_keeps_tasks (step_trans hst) (reachable_life hr) hm.1 hm.2
  · intro hm
    have hby := Machine.ReachableBy.runFrom Machine.ReachableBy.init hm h
    have hst : s.stoped = true :=
      hlife.left 0 (by rw [hexit 0 (hlife.created_pos (by simp [hj]))]; rfl)
    have hq := drained_of_lastDrains hby ⟨hst, fun i hi => by rw [hexit i hi]; rfl⟩
    refine ⟨hq, (reachable_ledger hr).exactly_once hq (fun i => ?_)⟩
    by_cases hi : i < s.created
    · rw [hexit i hi]
      rfl
    · rw [hlife.unborn i (not_lt.1 hi)]
      rfl

/-- One worker is created, one task is committed, and the destructor stores the
flag before the worker reaches its loop test. -/
def abandonedTask : List (Act (Fin 1) ℕ) :=
  [.construct, .construct, .construct, .commit 0 7, .lockCommitter 0, .push 0, .notifyOne 0 none,
    .destroy, .store, .notifyAll, .worker 0, .join, .join]

theorem abandonedTask_not_run : ∃ s, (pool 1 (Fin 1) ℕ).run abandonedTask = some s ∧
    s.destructor = .joined ∧ s.queue.submitted = [7] ∧ s.queue.tasks = [7] ∧ s.queue.ran = [] := by
  have hrun : ((pool 1 (Fin 1) ℕ).run abandonedTask).map (fun s =>
      (s.destructor, s.queue.submitted, s.queue.tasks, s.queue.ran)) =
      some (.joined, [7], [7], []) := by decide +kernel
  obtain ⟨s, hs, _, hv⟩ := Machine.reachable_of_run_map hrun
  simp only [Prod.mk.injEq] at hv
  exact ⟨s, hs, hv⟩

/-- The same pool, with the worker inside the wait before the destructor. -/
def drainedTask : List (Act (Fin 1) ℕ) :=
  [.construct, .construct, .construct, .worker 0, .worker 0, .worker 0, .worker 0, .commit 0 7,
    .lockCommitter 0, .push 0, .notifyOne 0 (some 0), .destroy, .store, .notifyAll, .worker 0,
    .worker 0, .worker 0, .worker 0, .worker 0, .worker 0, .worker 0, .worker 0, .join, .join]

theorem commit_honoured_iff_drainedTask : ∃ s, (pool 1 (Fin 1) ℕ).run drainedTask = some s ∧
    s.destructor = .joined ∧ s.queue.submitted = [7] ∧
    (pool 1 (Fin 1) ℕ).Meets LastDrains (pool 1 (Fin 1) ℕ).init drainedTask := by
  have hrun : ((pool 1 (Fin 1) ℕ).run drainedTask).map (fun s =>
      (s.destructor, s.queue.submitted, s.queue.tasks, s.queue.ran)) =
      some (.joined, [7], [], [⟨0, 0, 7⟩]) := by decide +kernel
  obtain ⟨s, hs, _, hv⟩ := Machine.reachable_of_run_map hrun
  simp only [Prod.mk.injEq] at hv
  obtain ⟨hj, hsub, hq, hran⟩ := hv
  refine ⟨s, hs, hj, hsub, (commit_honoured_iff drainedTask hs hj).1 ⟨hq, fun k hk => ?_⟩⟩
  have hk0 : k = 0 := by
    rw [hsub, List.length_singleton] at hk
    omega
  subst k
  exact ⟨⟨0, 0, 7⟩, by simp [hran], by simp [hsub]⟩

end Londa.Threadpool
