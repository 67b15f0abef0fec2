import Londa.FixedThreadPool

/-!
# Tasks of the fixed thread pool are run exactly once

The ledger of the queue is kept with the tickets that workers hold from the pop
to the end of `current()`, so no ticket is called twice or dropped. `Closing`
says what shutdown excludes: no task is pushed after `is_shutdown_` is set, so
the queue that a leaving worker saw empty stays empty.
-/

namespace Londa.FixedThreadPool

variable {n : ℕ} {κ τ : Type*}

/-- The ticket and the task a worker holds from its pop to the end of `current()`. -/
def WorkerPc.current : WorkerPc τ → Option (ℕ × τ)
  | .popped k t => some (k, t)
  | .running k t => some (k, t)
  | _ => none

/-- The worker has left its loop. -/
def WorkerPc.left : WorkerPc τ → Bool
  | .leaving => true
  | .exited => true
  | _ => false

theorem ledger_step [DecidableEq κ] {s t : State n κ τ} (ht : Trans s t)
    (h : s.queue.Ledger (fun i => (s.worker i).current)) :
    t.queue.Ledger (fun i => (t.worker i).current) := by
  cases ht with
  | pop i x rest hpc hq =>
      apply h.pop (by rw [hpc]; rfl) hq
      · simp [WorkerPc.current]
      · intro j hj
        simp [hj]
  | call i k x hpc =>
      apply h.call (by rw [hpc]; rfl)
      · simp [WorkerPc.current]
      · intro j hj
        simp [hj]
  | push k x hpc => exact h.push x
  | notifyOne k w pc hpc hw =>
      exact h.congr (cond.notifyOne_frame WorkerPc.current (cond_wake_frame _ rfl) hw)
  | notifyAll hd =>
      exact h.congr (cond.notifyAll_frame WorkerPc.current (cond_wake_frame _ rfl) s.worker)
  | lock i hpc hfree | leave i hpc hq hd | wait i hpc hq hd | unlock i k x hpc
  | block i hpc | exit i hpc | spurious i hpc =>
      exact h.congr (update_frame WorkerPc.current (by rw [hpc]; rfl))
  | execute k x hd hpc | lockCaller k x hpc hfree | destroy hd hk | lockDestructor hd hfree
  | shutdown hd => exact h

/-- Only the branch taken after shutdown with an empty queue makes a worker leave. -/
theorem trans_left_eq [DecidableEq κ] {s t : State n κ τ} (ht : Trans s t) :
    (∀ i, (t.worker i).left = (s.worker i).left) ∨ (s.isShutdown = true ∧ s.queue.tasks = []) := by
  cases ht with
  | leave i hpc hq hd => exact Or.inr ⟨hd, hq⟩
  | notifyOne k w pc hpc hw =>
      exact Or.inl (cond.notifyOne_frame WorkerPc.left (cond_wake_frame _ rfl) hw)
  | notifyAll hd =>
      exact Or.inl (cond.notifyAll_frame WorkerPc.left (cond_wake_frame _ rfl) s.worker)
  | lock i hpc hfree | pop i x rest hpc hq | wait i hpc hq hd | unlock i k x hpc | call i k x hpc
  | block i hpc | exit i hpc | spurious i hpc =>
      exact Or.inl (update_frame WorkerPc.left (by rw [hpc]; rfl))
  | execute k x hd hpc | lockCaller k x hpc hfree | push k x hpc | destroy hd hk
  | lockDestructor hd hfree | shutdown hd => exact Or.inl (fun _ => rfl)

structure Closing (s : State n κ τ) : Prop where
  shutdown : s.isShutdown = true → s.destructor ≠ .alive
  quiet : s.destructor ≠ .alive → ∀ k, (s.caller k).submitting = false
  left : ∀ i, (s.worker i).left = true → s.isShutdown = true ∧ s.queue.tasks = []

namespace Closing

theorem initial : Closing (initial n κ τ) := by
  constructor <;> simp [FixedThreadPool.initial, WorkerPc.left]

theorem left_of_eq {s : State n κ τ} (h : Closing s) {pc : Fin n → WorkerPc τ}
    (hl : (∀ i, (pc i).left = (s.worker i).left) ∨ (s.isShutdown = true ∧ s.queue.tasks = []))
    (i : Fin n) (hi : (pc i).left = true) : s.isShutdown = true ∧ s.queue.tasks = [] := by
  rcases hl with hl | hclosed
  · exact h.left i (by rw [← hl i, hi])
  · exact hclosed

theorem not_left_of_tasks {s : State n κ τ} (h : Closing s) (hq : s.queue.tasks ≠ []) (i : Fin n) :
    (s.worker i).left = false := by
  by_contra hl
  exact hq (h.left i (by simpa using hl)).2

variable [DecidableEq κ]

theorem step {s t : State n κ τ} (ht : Trans s t) (h : Closing s) : Closing t := by
  have hl := trans_left_eq ht
  cases ht with
  | pop i x rest hpc hq =>
      refine ⟨h.shutdown, h.quiet, fun j hj => ?_⟩
      rcases hl with hl | ⟨_, hempty⟩
      · rw [hl j, h.not_left_of_tasks (by simp [hq]) j] at hj
        cases hj
      · simp [hq] at hempty
  | leave i hpc hq hd => exact ⟨h.shutdown, h.quiet, fun j _ => ⟨hd, hq⟩⟩
  | push k x hpc =>
      have halive : s.destructor = .alive := by
        by_contra hne
        have hk := h.quiet hne k
        rw [hpc] at hk
        cases hk
      have hopen : ¬ s.isShutdown = true := fun hd => h.shutdown hd halive
      exact ⟨h.shutdown, fun hne => absurd halive hne, fun i hi => absurd (h.left i hi).1 hopen⟩
  | notifyOne k w pc hpc hw =>
      have hk : ∀ j, (Function.update s.caller k .idle j).submitting = (s.caller j).submitting :=
        update_frame CallerPc.submitting (by rw [hpc]; rfl)
      exact ⟨h.shutdown, fun hne j => (hk j).trans (h.quiet hne j), h.left_of_eq hl⟩
  | lockCaller k x hpc hfree =>
      have hk : ∀ j, (Function.update s.caller k (.holding x) j).submitting =
          (s.caller j).submitting := update_frame CallerPc.submitting (by rw [hpc]; rfl)
      exact ⟨h.shutdown, fun hne j => (hk j).trans (h.quiet hne j), h.left_of_eq hl⟩
  | execute k x hd hpc => exact ⟨h.shutdown, fun hne => absurd hd hne, h.left_of_eq hl⟩
  | lock i hpc hfree | wait i hpc hq hd | unlock i k x hpc | call i k x hpc
  | block i hpc | exit i hpc | spurious i hpc => exact ⟨h.shutdown, h.quiet, h.left_of_eq hl⟩
  | destroy hd hk => exact ⟨fun _ => by simp, fun _ => hk, h.left⟩
  | lockDestructor hd hfree => exact ⟨fun _ => by simp, fun _ => h.quiet (by simp [hd]), h.left⟩
  | shutdown hd =>
      exact ⟨fun _ => by simp, fun _ => h.quiet (by simp [hd]), fun i hi => ⟨rfl, (h.left i hi).2⟩⟩
  | notifyAll hd =>
      exact ⟨fun _ => by simp, fun _ => h.quiet (by simp [hd]), h.left_of_eq hl⟩

end Closing

variable [DecidableEq κ] [Fintype κ]

theorem reachable_ledger {s : State n κ τ} (h : (pool n κ τ).Reachable s) :
    s.queue.Ledger (fun i => (s.worker i).current) :=
  h.invariant (WorkQueue.Ledger.empty (fun _ => rfl))
    (fun _ hi hst => ledger_step (step_trans hst) hi)

theorem reachable_closing {s : State n κ τ} (h : (pool n κ τ).Reachable s) : Closing s :=
  h.invariant Closing.initial (fun _ hi hst => hi.step (step_trans hst))

/-- In every reachable state the dequeued tasks followed by the queue are the
submitted tasks in push order; no ticket is called twice, and a ticket is called
by the worker that dequeued it; a worker leaves its loop only after shutdown and
with an empty queue; and once all workers have left, every submitted task has
been called exactly once. -/
theorem tasks_run_exactly_once (hn : 1 ≤ n) {s : State n κ τ} (h : (pool n κ τ).Reachable s) :
    s.queue.dequeued.map Prod.snd ++ s.queue.tasks = s.queue.submitted ∧
    (s.queue.ran.map Call.ticket).Nodup ∧
    (∀ c ∈ s.queue.ran, s.queue.dequeued[c.ticket]? = some (c.worker, c.task)) ∧
    (∀ a t i, (pool n κ τ).step s a = some t → (s.worker i).left = false →
      (t.worker i).left = true → s.isShutdown = true ∧ s.queue.tasks = []) ∧
    ((∀ i, (s.worker i).left = true) → ∀ k (hk : k < s.queue.submitted.length),
      ∃ c, s.queue.ran.filter (fun c => c.ticket == k) = [c] ∧ c.task = s.queue.submitted[k]) := by
  have hl := reachable_ledger h
  have hc := reachable_closing h
  refine ⟨hl.fifo, hl.nodup, hl.ran, ?_, ?_⟩
  · intro a t i hst hs ht
    rcases trans_left_eq (step_trans hst) with heq | hclosed
    · rw [heq i, hs] at ht
      cases ht
    · exact hclosed
  intro hall k hk
  have hempty : s.queue.tasks = [] := (hc.left ⟨0, hn⟩ (hall _)).2
  have hidle : ∀ i, (s.worker i).current = none := by
    intro i
    have hi := hall i
    cases hpc : s.worker i <;> simp [hpc, WorkerPc.left, WorkerPc.current] at hi ⊢
  exact hl.exactly_once hempty hidle k hk

/-- Both workers go to sleep, and a call of `execute` wakes the first one. -/
def oneAwake : List (Act 2 Bool ℕ) :=
  List.replicate 3 (.worker ⟨0, Nat.zero_lt_two⟩) ++
    List.replicate 3 (.worker ⟨1, Nat.one_lt_two⟩) ++
    [.execute false 7, .lockCaller false, .push false, .notifyOne false (some ⟨0, Nat.zero_lt_two⟩)]

/-- Another call wakes the second worker, which takes the older task and finishes last; it
sleeps again when the destructor starts. -/
def twoTasks : List (Act 2 Bool ℕ) :=
  oneAwake ++
    [.execute true 8, .lockCaller true, .push true, .notifyOne true (some ⟨1, Nat.one_lt_two⟩)] ++
    List.replicate 3 (.worker ⟨1, Nat.one_lt_two⟩) ++
    List.replicate 4 (.worker ⟨0, Nat.zero_lt_two⟩) ++
    List.replicate 4 (.worker ⟨1, Nat.one_lt_two⟩) ++
    [.destroy, .lockDestructor, .shutdown, .notifyAll] ++
    List.replicate 3 (.worker ⟨0, Nat.zero_lt_two⟩) ++
    List.replicate 3 (.worker ⟨1, Nat.one_lt_two⟩)

theorem tasks_run_exactly_once_twoTasks : ∃ s, (pool 2 Bool ℕ).run twoTasks = some s ∧
    s.queue.submitted = [7, 8] ∧ s.queue.ran.map Call.task = [8, 7] ∧
    (∀ i, (s.worker i).left = true) ∧
    ∀ k < 2, ∃ c, s.queue.ran.filter (fun c => c.ticket == k) = [c] := by
  have hrun : ((pool 2 Bool ℕ).run twoTasks).map (fun s =>
      ((s.queue.submitted, s.queue.ran.map Call.task),
        (s.worker ⟨0, Nat.zero_lt_two⟩).left, (s.worker ⟨1, Nat.one_lt_two⟩).left)) =
          some (([7, 8], [8, 7]), true, true) := by decide +kernel
  obtain ⟨s, hs, hr, hv⟩ := Machine.reachable_of_run_map hrun
  obtain ⟨hqueue, hleft⟩ := Prod.mk.inj hv
  obtain ⟨hsub, hran⟩ := Prod.mk.inj hqueue
  have hall : ∀ i, (s.worker i).left = true := Fin.forall_fin_two.2 (Prod.mk.inj hleft)
  refine ⟨s, hs, hsub, hran, hall, fun k hk => ?_⟩
  have hlt : k < s.queue.submitted.length := by
    rw [hsub]
    exact hk
  obtain ⟨c, hc, -⟩ := (tasks_run_exactly_once (by decide) hr).2.2.2.2 hall k hlt
  exact ⟨c, hc⟩

end Londa.FixedThreadPool
