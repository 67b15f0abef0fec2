import Londa.FixedThreadPoolWakeup
import Londa.Counting

/-!
# The program of the fixed thread pool

Model of `print` and `main` in `code/concurrent/threadpool.cpp`, over the pool of
`FixedThreadPool`. In fifteen rounds `main` passes `print` and a lambda with the
number of the round to `execute`, and then its `thread_pool` is destroyed. A
worker that has a task in `current()` runs the body of the task: `print` takes
its number from `global_data++` in one step and prints it in a later one.

The workers are detached and the destructor of the pool does not wait for them, so
`return 0` ends the process wherever they are: a task that is still queued is never
run, and a number that was fetched may never be printed.

`sequential` is what one thread prints that runs the tasks one after the other.
The workers print the same numbers, none twice, and run ahead of the sequential
output by less than the number of workers: the `j`-th number printed is among
the first `j + n` of it. All of them are printed exactly if no task is left when
`main` returns.
-/

namespace Londa.FixedThreadPoolMain

open FixedThreadPool (WorkerPc CallerPc DestructorPc reachable_ledger reachable_closing
  reachable_sleep)

/-- What `main` passes to `execute`: `print`, or the lambda that has captured `i`. -/
inductive Task
  | print
  | lambda (i : ℕ)
  deriving DecidableEq

def Task.prints : Task → Bool
  | .print => true
  | .lambda _ => false

/-- The calls of `execute` in the loop of `main`. -/
def tasks : List Task := (List.range' 1 15).flatMap (fun i => [.print, .lambda i])

/-- The numbers printed by tasks that run one after the other. -/
def inOrder : ℕ → List Task → List ℕ
  | _, [] => []
  | globalData, .print :: rest => globalData :: inOrder (globalData + 1) rest
  | globalData, .lambda i :: rest => i :: inOrder globalData rest

def sequential : List ℕ := inOrder 100 tasks

example : sequential.take 6 = [100, 1, 101, 2, 102, 3] := by decide

/-- `calls` are the calls of `execute` still to come, `fetched` is the value of
`global_data++` in a worker that has not printed it yet, `out` has the lines with the
thread and the number, and `returned` is set when `main` has returned. -/
structure State (n : ℕ) where
  pool : FixedThreadPool.State n Unit Task
  calls : List Task
  globalData : ℕ
  fetched : Fin n → Option ℕ
  out : List (Fin n × ℕ)
  returned : Bool

inductive Act (n : ℕ)
  | worker (i : Fin n)
  | spurious (i : Fin n)
  | main (w : Option (Fin n))

def Act.isSpurious {n : ℕ} : Act n → Bool
  | .spurious _ => true
  | _ => false

variable {n : ℕ}

namespace State

def numbers (s : State n) : List ℕ := s.out.map Prod.snd

/-- A step of the pool that runs no statement of `print` or of a lambda. -/
def lift (s : State n) (a : FixedThreadPool.Act n Unit Task) : Option (State n) :=
  (FixedThreadPool.step s.pool a).map (fun p => { s with pool := p })

/-- The output of a task, at the end of `current()`. -/
def finish (s : State n) (i : Fin n) (v : ℕ) : Option (State n) :=
  (FixedThreadPool.step s.pool (.worker i)).map (fun p =>
    { s with
      pool := p
      fetched := Function.update s.fetched i none
      out := s.out ++ [(i, v)] })

/-- A statement of the body of a task. The counter is an `int` that starts at 100
and is incremented fifteen times. -/
def body (s : State n) (i : Fin n) : Task → Option (State n)
  | .print =>
      match s.fetched i with
      | none => some { s with
          fetched := Function.update s.fetched i (some s.globalData)
          globalData := s.globalData + 1 }
      | some v => s.finish i v
  | .lambda v => s.finish i v

end State

def workerStep (s : State n) (i : Fin n) : Option (State n) :=
  match s.pool.worker i with
  | .running _ task => s.body i task
  | _ => s.lift (.worker i)

/-- The calls of `execute`, then the destructor of `thread_pool` and the end of the
process; `w` is the thread that a `notify_one` wakes. -/
def mainStep (s : State n) (w : Option (Fin n)) : Option (State n) :=
  match s.pool.caller () with
  | .idle =>
      match s.calls with
      | task :: rest =>
          (FixedThreadPool.step s.pool (.execute () task)).map (fun p =>
            { s with pool := p, calls := rest })
      | [] =>
          match s.pool.destructor with
          | .alive => s.lift .destroy
          | .locking => s.lift .lockDestructor
          | .holding => s.lift .shutdown
          | .notifying => s.lift .notifyAll
          | .done => some { s with returned := true }
  | .locking _ => s.lift (.lockCaller ())
  | .holding _ => s.lift (.push ())
  | .notifying => s.lift (.notifyOne () w)

/-- Nothing runs any more when the process has ended. -/
def step (s : State n) (a : Act n) : Option (State n) :=
  if s.returned then none
  else
    match a with
    | .worker i => workerStep s i
    | .spurious i => s.lift (.spurious i)
    | .main w => mainStep s w

def main (n : ℕ) : Machine (State n) (Act n) where
  init := {
    pool := FixedThreadPool.initial n Unit Task
    calls := tasks
    globalData := 100
    fetched := fun _ => none
    out := []
    returned := false }
  step := step

section Pool

variable {p q : FixedThreadPool.State n Unit Task} {i : Fin n}

/-- The task of a call of `execute` that has not pushed it yet. -/
def pending : CallerPc Task → List Task
  | .locking task => [task]
  | .holding task => [task]
  | _ => []

/-- A bound on the steps a worker takes before it blocks or exits. -/
def weight : WorkerPc Task → ℕ
  | .popped _ _ => 6
  | .running _ _ => 5
  | .locking => 3
  | .head => 2
  | .waiting => 1
  | .leaving => 1
  | .blocked => 0
  | .exited => 0

def callerWeight : CallerPc Task → ℕ
  | .locking _ => 11
  | .holding _ => 10
  | .notifying => 4
  | .idle => 0

def destructorWeight (n : ℕ) : DestructorPc → ℕ
  | .alive => 3 * n + 4
  | .locking => 3 * n + 3
  | .holding => 3 * n + 2
  | .notifying => 3 * n + 1
  | .done => 0

/-- A queued task counts for what it adds to the weight of the worker that pops it, and
a notification for the workers it may wake. -/
def rank (p : FixedThreadPool.State n Unit Task) : ℕ :=
  ∑ i, weight (p.worker i) + 5 * p.queue.tasks.length + callerWeight (p.caller ()) +
    destructorWeight n p.destructor

/-- What the steps of the pool besides calls of tasks and calls of `execute` do to
the part of it that the program looks at; `g` bounds what the rank may gain. -/
structure Quiet (g : ℕ) (p q : FixedThreadPool.State n Unit Task) : Prop where
  ran : q.queue.ran = p.queue.ran
  running : ∀ i k task, p.worker i = .running k task → q.worker i = .running k task
  submitted : q.queue.submitted ++ pending (q.caller ()) =
    p.queue.submitted ++ pending (p.caller ())
  idle : p.caller () = .idle → q.caller () = .idle
  rank : rank q < rank p + g

theorem update_running {pc : WorkerPc Task} (hpc : ∀ k task, p.worker i ≠ .running k task)
    (j : Fin n) (k : ℕ) (task : Task) (hj : p.worker j = .running k task) :
    Function.update p.worker i pc j = .running k task := by
  have hji : j ≠ i := by
    rintro rfl
    exact hpc k task hj
  rw [Function.update_of_ne hji, hj]

theorem sum_weight (p : FixedThreadPool.State n Unit Task) (i : Fin n) (pc : WorkerPc Task) :
    ∑ j, weight (Function.update p.worker i pc j) + weight (p.worker i) =
      ∑ j, weight (p.worker j) + weight pc :=
  sum_update_add weight (Finset.mem_univ i)

theorem quiet_worker {g : ℕ} {pc : WorkerPc Task} (hpc : ∀ k task, p.worker i ≠ .running k task)
    (hw : q.worker = Function.update p.worker i pc) (hc : q.caller = p.caller)
    (hd : q.destructor = p.destructor) (hran : q.queue.ran = p.queue.ran)
    (hsub : q.queue.submitted = p.queue.submitted)
    (hlt : weight pc + 5 * q.queue.tasks.length <
      weight (p.worker i) + 5 * p.queue.tasks.length + g) :
    Quiet g p q ∧ q.destructor = p.destructor := by
  refine ⟨⟨hran, fun j k task hj => ?_, by rw [hsub, hc], fun hk => by rw [hc, hk], ?_⟩, hd⟩
  · rw [hw]
    exact update_running hpc j k task hj
  · have hsum := sum_weight p i pc
    rw [← hw] at hsum
    unfold rank
    rw [hc, hd]
    omega

theorem workerStep_quiet (hst : FixedThreadPool.workerStep p i = some q)
    (hpc : ∀ k task, p.worker i ≠ .running k task) :
    Quiet 0 p q ∧ q.destructor = p.destructor := by
  unfold FixedThreadPool.workerStep at hst
  split at hst
  case h_1 hi =>
    split_ifs at hst
    cases hst
    exact quiet_worker hpc rfl rfl rfl rfl rfl (by simp [hi, weight])
  case h_2 hi =>
    split at hst
    · rename_i task rest hq
      cases hst
      refine quiet_worker hpc rfl rfl rfl rfl rfl ?_
      rw [hi, hq]
      simp only [weight, WorkQueue.pop_tasks, List.length_cons]
      omega
    · split_ifs at hst
      · cases hst
        exact quiet_worker hpc rfl rfl rfl rfl rfl (by simp [hi, weight])
      · cases hst
        exact quiet_worker hpc rfl rfl rfl rfl rfl (by simp [hi, weight])
  case h_3 hi =>
    cases hst
    exact quiet_worker hpc rfl rfl rfl rfl rfl (by simp [hi, weight])
  case h_4 k task hi => exact absurd hi (hpc k task)
  case h_5 hi =>
    cases hst
    exact quiet_worker hpc rfl rfl rfl rfl rfl (by simp [hi, weight])
  case h_6 hi =>
    cases hst
    exact quiet_worker hpc rfl rfl rfl rfl rfl (by simp [hi, weight])
  case h_7 => cases hst
  case h_8 => cases hst

theorem spurious_quiet (hst : FixedThreadPool.step p (.spurious i) = some q) :
    Quiet 4 p q ∧ q.destructor = p.destructor := by
  simp only [FixedThreadPool.step] at hst
  split at hst
  case h_1 hi =>
    cases hst
    refine quiet_worker (by simp [hi]) rfl rfl rfl rfl rfl ?_
    simp only [hi, weight, FixedThreadPool.State.setWorker]
    omega
  case h_2 => cases hst

theorem weight_wake (pc : WorkerPc Task) (hb : FixedThreadPool.cond.blocked pc) :
    weight (FixedThreadPool.cond.wake pc) = weight pc + 3 := by
  cases pc with
  | blocked => rfl
  | _ => cases hb

/-- The step of a call of `execute` behind its first statement. -/
theorem callerStep_quiet {a : FixedThreadPool.Act n Unit Task}
    (ha : ∀ task, a ≠ .execute () task) (hst : FixedThreadPool.callerStep p () a = some q) :
    Quiet 0 p q ∧ q.destructor = p.destructor := by
  cases a with
  | execute k task => exact absurd rfl (ha task)
  | lockCaller =>
      simp only [FixedThreadPool.callerStep] at hst
      split at hst
      case h_1 task hk =>
        split_ifs at hst
        cases hst
        refine ⟨⟨rfl, fun _ _ _ => id, ?_, ?_, ?_⟩, rfl⟩
        · simp [hk, pending]
        · simp [hk]
        · simp [rank, hk, callerWeight]
      case h_2 => cases hst
  | push =>
      simp only [FixedThreadPool.callerStep] at hst
      split at hst
      case h_1 task hk =>
        cases hst
        refine ⟨⟨rfl, fun _ _ _ => id, ?_, ?_, ?_⟩, rfl⟩
        · simp [hk, pending]
        · simp [hk]
        · simp [rank, hk, callerWeight]
          omega
      case h_2 => cases hst
  | notifyOne k w =>
      simp only [FixedThreadPool.callerStep] at hst
      split at hst
      case h_1 hk =>
        obtain ⟨pc, hw, rfl⟩ := Option.map_eq_some_iff.1 hst
        have hsum := FixedThreadPool.cond.sum_notifyOne_le (fun pc hb => (weight_wake pc hb).le)
          subset_rfl hw
        refine ⟨⟨rfl, fun j l task hj => ?_, by simp [hk, pending], by simp [hk], ?_⟩, rfl⟩
        · exact (FixedThreadPool.cond.notifyOne_of_not_blocked hw (by rw [hj]; rfl)).trans hj
        · simp only [rank, hk, callerWeight, FixedThreadPool.State.setCaller,
            Function.update_self]
          omega
      case h_2 => cases hst
  | _ => simp [FixedThreadPool.callerStep] at hst

theorem destructorStep_quiet {a : FixedThreadPool.Act n Unit Task}
    (hst : FixedThreadPool.destructorStep p a = some q) : Quiet 0 p q := by
  cases a with
  | destroy =>
      simp only [FixedThreadPool.destructorStep] at hst
      split_ifs at hst with hd
      cases hst
      exact ⟨rfl, fun _ _ _ => id, rfl, id, by simp [rank, hd.1, destructorWeight]⟩
  | lockDestructor =>
      simp only [FixedThreadPool.destructorStep] at hst
      split_ifs at hst with hd
      cases hst
      exact ⟨rfl, fun _ _ _ => id, rfl, id, by simp [rank, hd.1, destructorWeight]⟩
  | shutdown =>
      simp only [FixedThreadPool.destructorStep] at hst
      split_ifs at hst with hd
      cases hst
      exact ⟨rfl, fun _ _ _ => id, rfl, id, by simp [rank, hd, destructorWeight]⟩
  | notifyAll =>
      simp only [FixedThreadPool.destructorStep] at hst
      split_ifs at hst with hd
      cases hst
      refine ⟨rfl, fun j k task hj => ?_, rfl, id, ?_⟩
      · exact (FixedThreadPool.cond.notifyAll_of_not_blocked (by rw [hj]; rfl)).trans hj
      · have hsum := FixedThreadPool.cond.sum_notifyAll_le Finset.univ p.worker
          (fun pc hb => (weight_wake pc hb).le)
        rw [Finset.card_fin] at hsum
        simp only [rank, hd, destructorWeight]
        omega
  | _ => simp [FixedThreadPool.destructorStep] at hst

end Pool

def Act.gain : Act n → ℕ
  | .spurious _ => 4
  | _ => 0

/-- What a step can do: run a statement of a task, call `execute`, move the rest of the
pool, or return from `main`. -/
inductive Trans (s : State n) : ℕ → State n → Prop
  | fetch (i : Fin n) (k : ℕ) : s.pool.worker i = .running k .print → s.fetched i = none →
      Trans s 0 { s with
        fetched := Function.update s.fetched i (some s.globalData)
        globalData := s.globalData + 1 }
  | finish (i : Fin n) (k : ℕ) (task : Task) (v : ℕ) : s.pool.worker i = .running k task →
      (task = .print ∧ s.fetched i = some v ∨ task = .lambda v) →
      Trans s 0 { s with
        pool := { s.pool.setWorker i .locking with queue := s.pool.queue.call ⟨i, k, task⟩ }
        fetched := Function.update s.fetched i none
        out := s.out ++ [(i, v)] }
  | execute (task : Task) (rest : List Task) : s.calls = task :: rest →
      s.pool.destructor = .alive → s.pool.caller () = .idle →
      Trans s 0 { s with pool := s.pool.setCaller () (.locking task), calls := rest }
  | quiet (g : ℕ) (q : FixedThreadPool.State n Unit Task) : Quiet g s.pool q →
      (q.destructor = s.pool.destructor ∨ s.pool.caller () = .idle ∧ s.calls = []) →
      Trans s g { s with pool := q }
  | exit : s.pool.destructor = .done → Trans s 0 { s with returned := true }

variable {s t : State n} {i : Fin n}

theorem lift_trans {a : FixedThreadPool.Act n Unit Task} {g : ℕ} (hst : s.lift a = some t)
    (hq : ∀ {q}, FixedThreadPool.step s.pool a = some q → Quiet g s.pool q ∧
      (q.destructor = s.pool.destructor ∨ s.pool.caller () = .idle ∧ s.calls = [])) :
    Trans s g t := by
  obtain ⟨q, hpool, rfl⟩ := Option.map_eq_some_iff.1 hst
  exact .quiet g q (hq hpool).1 (hq hpool).2

theorem finish_trans {k v : ℕ} {task : Task} (hpc : s.pool.worker i = .running k task)
    (hv : task = .print ∧ s.fetched i = some v ∨ task = .lambda v)
    (hst : s.finish i v = some t) : Trans s 0 t := by
  obtain ⟨q, hpool, rfl⟩ := Option.map_eq_some_iff.1 hst
  simp only [FixedThreadPool.step, FixedThreadPool.workerStep, hpc] at hpool
  cases hpool
  exact .finish i k task v hpc hv

theorem workerStep_trans (hst : workerStep s i = some t) : Trans s 0 t := by
  unfold workerStep at hst
  split at hst
  case h_1 k task hpc =>
    cases task with
    | print =>
        simp only [State.body] at hst
        split at hst
        case h_1 hf =>
          cases hst
          exact .fetch i k hpc hf
        case h_2 v hf => exact finish_trans hpc (.inl ⟨rfl, hf⟩) hst
    | lambda v => exact finish_trans hpc (.inr rfl) hst
  case h_2 hpc =>
    refine lift_trans hst (fun hq => ?_)
    obtain ⟨hquiet, hd⟩ := workerStep_quiet hq hpc
    exact ⟨hquiet, .inl hd⟩

theorem mainStep_trans {w : Option (Fin n)} (hst : mainStep s w = some t) : Trans s 0 t := by
  have hcaller : ∀ {a}, (∀ task, a ≠ .execute () task) →
      FixedThreadPool.step s.pool a = FixedThreadPool.callerStep s.pool () a →
      s.lift a = some t → Trans s 0 t := by
    intro a ha heq hst
    refine lift_trans hst (fun hq => ?_)
    obtain ⟨hquiet, hd⟩ := callerStep_quiet ha (heq ▸ hq)
    exact ⟨hquiet, .inl hd⟩
  unfold mainStep at hst
  split at hst
  case h_1 hk =>
    split at hst
    case h_1 task rest hcalls =>
      obtain ⟨q, hpool, rfl⟩ := Option.map_eq_some_iff.1 hst
      simp only [FixedThreadPool.step, FixedThreadPool.callerStep, hk] at hpool
      split_ifs at hpool with hd
      cases hpool
      exact .execute task rest hcalls hd hk
    case h_2 hcalls =>
      have hdestruct : ∀ {a}, FixedThreadPool.step s.pool a =
          FixedThreadPool.destructorStep s.pool a → s.lift a = some t → Trans s 0 t :=
        fun heq hst => lift_trans hst
          (fun hq => ⟨destructorStep_quiet (heq ▸ hq), .inr ⟨hk, hcalls⟩⟩)
      split at hst
      · exact hdestruct rfl hst
      · exact hdestruct rfl hst
      · exact hdestruct rfl hst
      · exact hdestruct rfl hst
      · rename_i hd
        cases hst
        exact .exit hd
  case h_2 => exact hcaller (by simp) rfl hst
  case h_3 => exact hcaller (by simp) rfl hst
  case h_4 => exact hcaller (by simp) rfl hst

theorem step_live {a : Act n} (hst : step s a = some t) : s.returned = false := by
  unfold step at hst
  split_ifs at hst with h
  exact Bool.eq_false_iff.2 h

theorem step_trans {a : Act n} (hst : step s a = some t) : Trans s a.gain t := by
  rw [step.eq_def, step_live hst] at hst
  cases a with
  | worker i => exact workerStep_trans hst
  | spurious i =>
      refine lift_trans hst (fun hq => ?_)
      obtain ⟨hquiet, hd⟩ := spurious_quiet hq
      exact ⟨hquiet, .inl hd⟩
  | main w => exact mainStep_trans hst

/-- The pool of the program moves by the steps of the pool. -/
def Follows (s t : State n) : Prop :=
  t.pool = s.pool ∨ ∃ b, FixedThreadPool.step s.pool b = some t.pool

theorem follows_map {b : FixedThreadPool.Act n Unit Task}
    {f : FixedThreadPool.State n Unit Task → State n} (hf : ∀ q, (f q).pool = q)
    (hst : (FixedThreadPool.step s.pool b).map f = some t) : Follows s t := by
  obtain ⟨q, hpool, rfl⟩ := Option.map_eq_some_iff.1 hst
  refine .inr ⟨b, ?_⟩
  rw [hf, hpool]

theorem workerStep_follows (hst : workerStep s i = some t) : Follows s t := by
  unfold workerStep at hst
  split at hst
  case h_1 k task hpc =>
    cases task with
    | print =>
        simp only [State.body] at hst
        split at hst
        · cases hst
          exact .inl rfl
        · exact follows_map (fun _ => rfl) hst
    | lambda v => exact follows_map (fun _ => rfl) hst
  case h_2 => exact follows_map (fun _ => rfl) hst

theorem mainStep_follows {w : Option (Fin n)} (hst : mainStep s w = some t) : Follows s t := by
  unfold mainStep at hst
  split at hst
  · split at hst
    · exact follows_map (fun _ => rfl) hst
    · split at hst
      · exact follows_map (fun _ => rfl) hst
      · exact follows_map (fun _ => rfl) hst
      · exact follows_map (fun _ => rfl) hst
      · exact follows_map (fun _ => rfl) hst
      · cases hst
        exact .inl rfl
  · exact follows_map (fun _ => rfl) hst
  · exact follows_map (fun _ => rfl) hst
  · exact follows_map (fun _ => rfl) hst

theorem step_follows {a : Act n} (hst : step s a = some t) : Follows s t := by
  rw [step.eq_def, step_live hst] at hst
  cases a with
  | worker i => exact workerStep_follows hst
  | spurious i => exact follows_map (fun _ => rfl) hst
  | main w => exact mainStep_follows hst

theorem reachable_pool (h : (main n).Reachable s) :
    (FixedThreadPool.pool n Unit Task).Reachable s.pool := by
  refine h.invariant (I := fun s : State n => (FixedThreadPool.pool n Unit Task).Reachable s.pool)
    .init (fun _ hi hst => ?_)
  rcases step_follows hst with heq | ⟨b, hb⟩
  · rw [heq]
    exact hi
  · exact Machine.Reachable.step hi hb

section Order

theorem inOrder_lambda {ts : List Task} {k v : ℕ} (g : ℕ) (h : ts[k]? = some (.lambda v)) :
    (inOrder g ts)[k]? = some v := by
  induction ts generalizing g k with
  | nil => cases h
  | cons task ts ih =>
      cases k with
      | zero =>
          cases h
          rfl
      | succ k =>
          cases task with
          | print => exact ih (g + 1) h
          | lambda i => exact ih g h

/-- The `m`-th `print` prints `g + m`. -/
theorem inOrder_print {ts : List Task} {m l : ℕ} (g : ℕ)
    (h : m < (ts.take l).countP Task.prints) : g + m ∈ (inOrder g ts).take l := by
  induction ts generalizing g m l with
  | nil => simp at h
  | cons task ts ih =>
      cases l with
      | zero => simp at h
      | succ l =>
          cases task with
          | lambda i =>
              rw [List.take_succ_cons, List.countP_cons_of_neg (by simp [Task.prints])] at h
              exact List.mem_cons_of_mem _ (ih g h)
          | print =>
              rw [List.take_succ_cons, List.countP_cons_of_pos (by rfl)] at h
              cases m with
              | zero => exact List.mem_cons_self
              | succ m =>
                  have hm := ih (g + 1) (Nat.lt_of_succ_lt_succ h)
                  rw [Nat.add_right_comm] at hm
                  exact List.mem_cons_of_mem _ hm

theorem tasks_at : ∀ k < 30, tasks[k]? = some .print ∨
    k % 2 = 1 ∧ tasks[k]? = some (.lambda ((k + 1) / 2)) := by decide

theorem tasks_lambda {k v : ℕ} (h : tasks[k]? = some (.lambda v)) : k + 1 = 2 * v ∧ v ≤ 15 := by
  have hk : k < 30 := (List.getElem?_eq_some_iff.1 h).1
  rcases tasks_at k hk with hat | ⟨hodd, hat⟩
  · rw [hat] at h
    cases h
  · rw [hat] at h
    cases h
    omega

/-- A list without repetition that stays within one more element of another than it has
itself at each position follows it. -/
theorem prefix_of_mem_take {l r : List ℕ} (hl : l.Nodup)
    (h : ∀ j v, l[j]? = some v → v ∈ r.take (j + 1)) : l <+: r := by
  have hsame : ∀ (j : ℕ) (hj : j < l.length), r[j]? = some l[j] := by
    intro j
    induction j using Nat.strong_induction_on with
    | h j ih =>
        intro hj
        obtain ⟨p, hp, hval⟩ :=
          List.mem_take_iff_getElem.1 (h j l[j] (List.getElem?_eq_getElem hj))
        have hrp : r[p]? = some l[j] := List.getElem?_eq_some_iff.2 ⟨by omega, hval⟩
        rcases (show p ≤ j by omega).lt_or_eq with hlt | rfl
        · have hearlier := ih p hlt (hlt.trans hj)
          rw [hrp] at hearlier
          exact absurd (hl.getElem_inj_iff.1 (Option.some.inj hearlier)) hlt.ne'
        · exact hrp
  rw [List.prefix_iff_getElem?]
  exact hsame

end Order

section Tally

variable {κ τ : Type*} {p q : FixedThreadPool.State n κ τ} {f : τ → Bool}

/-- The worker has taken a task that `f` counts, and has not finished it. -/
def busy (f : τ → Bool) (pc : WorkerPc τ) : Bool := pc.current.any (fun c => f c.2)

/-- Every task taken from the queue is finished, or it is in the hands of a worker. -/
def Tally (f : τ → Bool) (p : FixedThreadPool.State n κ τ) : Prop :=
  (p.queue.dequeued.map Prod.snd).countP f =
    (p.queue.ran.map Call.task).countP f + (places (busy f) Finset.univ p.worker).card

theorem Tally.frame (h : Tally f p) (hd : q.queue.dequeued = p.queue.dequeued)
    (hr : q.queue.ran = p.queue.ran) (hw : ∀ j, busy f (q.worker j) = busy f (p.worker j)) :
    Tally f q := by
  unfold Tally
  rw [hd, hr, places_congr hw]
  exact h

theorem Tally.update {i : Fin n} {pc : WorkerPc τ} (h : Tally f p)
    (hw : q.worker = Function.update p.worker i pc)
    (hcount : (q.queue.dequeued.map Prod.snd).countP f + (p.queue.ran.map Call.task).countP f +
        (if busy f (p.worker i) then 1 else 0) =
      (p.queue.dequeued.map Prod.snd).countP f + (q.queue.ran.map Call.task).countP f +
        if busy f pc then 1 else 0) : Tally f q := by
  have hcard : (places (busy f) Finset.univ (Function.update p.worker i pc)).card +
      (if busy f (p.worker i) then 1 else 0) =
        (places (busy f) Finset.univ p.worker).card + if busy f pc then 1 else 0 :=
    card_places_update (Finset.mem_univ i)
  unfold Tally at h ⊢
  rw [hw]
  omega

theorem Tally.step [DecidableEq κ] (ht : FixedThreadPool.Trans p q) (h : Tally f p) :
    Tally f q := by
  cases ht with
  | pop i x rest hpc hq =>
      refine h.update rfl ?_
      cases hx : f x <;> simp [hpc, hx, busy, WorkerPc.current]
      omega
  | call i k x hpc =>
      refine h.update rfl ?_
      cases hx : f x <;> simp [hpc, hx, busy, WorkerPc.current]
      omega
  | lock i hpc | leave i hpc | wait i hpc | unlock i k x hpc | block i hpc | exit i hpc
  | spurious i hpc => exact h.frame rfl rfl (update_frame (busy f) (by rw [hpc]; rfl))
  | notifyOne k w pc hpc hw =>
      exact h.frame rfl rfl (FixedThreadPool.cond.notifyOne_frame (busy f)
        (FixedThreadPool.cond_wake_frame _ rfl) hw)
  | notifyAll hd =>
      exact h.frame rfl rfl (FixedThreadPool.cond.notifyAll_frame (busy f)
        (FixedThreadPool.cond_wake_frame _ rfl) p.worker)
  | execute | lockCaller | push | destroy | lockDestructor | shutdown => exact h

theorem reachable_tally [DecidableEq κ] [Fintype κ]
    (h : (FixedThreadPool.pool n κ τ).Reachable p) : Tally f p :=
  h.invariant (by simp [Tally, FixedThreadPool.pool, FixedThreadPool.initial, WorkQueue.empty,
    places, busy, WorkerPc.current]) (fun _ hi hst => hi.step (FixedThreadPool.step_trans hst))

end Tally

/-- The calls of `execute` made and to come are the fifteen rounds; the values of
`global_data++` that have been read are printed or held by one worker each. -/
structure Inv (s : State n) : Prop where
  script : s.pool.queue.submitted ++ pending (s.pool.caller ()) ++ s.calls = tasks
  closed : s.pool.destructor ≠ .alive → s.pool.caller () = .idle ∧ s.calls = []
  length : s.out.length = s.pool.queue.ran.length
  printing : ∀ i v, s.fetched i = some v → ∃ k, s.pool.worker i = .running k .print
  counter : s.globalData = 100 + (s.pool.queue.ran.map Call.task).countP Task.prints +
    (places Option.isSome Finset.univ s.fetched).card
  fetched : ∀ i v, s.fetched i = some v → 100 ≤ v ∧ v < s.globalData ∧ v ∉ s.numbers
  apart : ∀ i j v, s.fetched i = some v → s.fetched j = some v → i = j
  printed : ∀ v ∈ s.numbers, 100 ≤ v ∧ v < s.globalData ∨
    .lambda v ∈ s.pool.queue.ran.map Call.task
  nodup : s.numbers.Nodup
  near : ∀ j v, s.numbers[j]? = some v → v ∈ sequential.take (j + n)

namespace Inv

theorem initial : Inv (main n).init := by
  constructor <;> simp [main, FixedThreadPool.initial, WorkQueue.empty, pending, places,
    State.numbers]

/-- The tasks taken are the first ones of the fifteen rounds. -/
theorem dequeued_eq (hi : Inv s) (hr : (main n).Reachable s) :
    s.pool.queue.dequeued.map Prod.snd = tasks.take s.pool.queue.dequeued.length := by
  have hfifo := (reachable_ledger (reachable_pool hr)).fifo
  have hall := hi.script
  rw [← hfifo, List.append_assoc, List.append_assoc] at hall
  have htake := List.prefix_iff_eq_take.1 ⟨_, hall⟩
  rwa [List.length_map] at htake

/-- The workers hold as many tasks as they are at most. -/
theorem dequeued_length_le (hi : Inv s) (hr : (main n).Reachable s) :
    s.pool.queue.dequeued.length ≤ s.out.length + n := by
  have htally := reachable_tally (f := fun _ : Task => true) (reachable_pool hr)
  have hcard := (places (busy fun _ : Task => true) Finset.univ s.pool.worker).card_le_univ
  unfold Tally at htally
  rw [Fintype.card_fin] at hcard
  rw [hi.length]
  simp only [List.countP_true, List.length_map] at htally
  omega

theorem counter_le (hi : Inv s) (hr : (main n).Reachable s) :
    s.globalData ≤ 100 + (s.pool.queue.dequeued.map Prod.snd).countP Task.prints := by
  have htally := reachable_tally (f := Task.prints) (reachable_pool hr)
  have hsub : places Option.isSome Finset.univ s.fetched ⊆
      places (busy Task.prints) Finset.univ s.pool.worker := by
    intro i hmem
    obtain ⟨v, hv⟩ := Option.isSome_iff_exists.1 (Finset.mem_filter.1 hmem).2
    obtain ⟨k, hpc⟩ := hi.printing i v hv
    exact Finset.mem_filter.2 ⟨Finset.mem_univ i, by rw [hpc]; rfl⟩
  have hcard := Finset.card_le_card hsub
  unfold Tally at htally
  rw [hi.counter, htally]
  omega

theorem task_at (hi : Inv s) (hr : (main n).Reachable s) {k : ℕ} {i : Fin n} {task : Task}
    (h : s.pool.queue.dequeued[k]? = some (i, task)) : tasks[k]? = some task := by
  have hk := (List.getElem?_eq_some_iff.1 h).1
  have hmap : (s.pool.queue.dequeued.map Prod.snd)[k]? = some task := by
    rw [List.getElem?_map, h]
    rfl
  rwa [hi.dequeued_eq hr, List.getElem?_take_of_lt hk] at hmap

/-- The lambdas that have been called were taken with their own tickets. -/
theorem lambda_ran (hi : Inv s) (hr : (main n).Reachable s) {v : ℕ}
    (h : .lambda v ∈ s.pool.queue.ran.map Call.task) :
    v ≤ 15 ∧ 2 * v - 1 ∈ s.pool.queue.ran.map Call.ticket := by
  obtain ⟨c, hc, htask⟩ := List.mem_map.1 h
  have hat := (reachable_ledger (reachable_pool hr)).ran c hc
  rw [htask] at hat
  obtain ⟨hticket, hv⟩ := tasks_lambda (hi.task_at hr hat)
  refine ⟨hv, List.mem_map.2 ⟨c, hc, ?_⟩⟩
  omega

section Finish

variable {k v : ℕ} {task : Task}

theorem held (hr : (main n).Reachable s) (hpc : s.pool.worker i = .running k task) :
    s.pool.queue.dequeued[k]? = some (i, task) ∧ k ∉ s.pool.queue.ran.map Call.ticket :=
  (reachable_ledger (reachable_pool hr)).held i k task (by rw [hpc]; rfl)

theorem number_mem (hi : Inv s) (hr : (main n).Reachable s)
    (hpc : s.pool.worker i = .running k task)
    (hv : task = .print ∧ s.fetched i = some v ∨ task = .lambda v) :
    v ∈ sequential.take (s.out.length + n) := by
  refine List.take_subset_take_left sequential (hi.dequeued_length_le hr) ?_
  rcases hv with ⟨rfl, hf⟩ | rfl
  · obtain ⟨hge, hlt, -⟩ := hi.fetched i v hf
    have hle := hi.counter_le hr
    rw [hi.dequeued_eq hr] at hle
    have hmem := inOrder_print (m := v - 100) 100
      (show v - 100 < (tasks.take s.pool.queue.dequeued.length).countP Task.prints by omega)
    rwa [Nat.add_sub_cancel' hge] at hmem
  · have hat := (held hr hpc).1
    have hlt := (List.getElem?_eq_some_iff.1 hat).1
    have hseq := inOrder_lambda 100 (hi.task_at hr hat)
    rw [← List.getElem?_take_of_lt hlt] at hseq
    exact List.mem_of_getElem? hseq

theorem number_new (hi : Inv s) (hr : (main n).Reachable s)
    (hpc : s.pool.worker i = .running k task)
    (hv : task = .print ∧ s.fetched i = some v ∨ task = .lambda v) : v ∉ s.numbers := by
  rcases hv with ⟨rfl, hf⟩ | rfl
  · exact (hi.fetched i v hf).2.2
  · obtain ⟨hat, hnew⟩ := held hr hpc
    obtain ⟨hticket, hle⟩ := tasks_lambda (hi.task_at hr hat)
    intro hmem
    rcases hi.printed v hmem with ⟨hge, -⟩ | hran
    · omega
    · have hk := (hi.lambda_ran hr hran).2
      rw [← hticket, Nat.add_sub_cancel] at hk
      exact hnew hk

end Finish

theorem card_fetched (s : State n) (i : Fin n) (x : Option ℕ) :
    (places Option.isSome Finset.univ (Function.update s.fetched i x)).card +
        (if (s.fetched i).isSome then 1 else 0) =
      (places Option.isSome Finset.univ s.fetched).card + if x.isSome then 1 else 0 :=
  card_places_update (Finset.mem_univ i)

theorem step_quiet {g : ℕ} {q : FixedThreadPool.State n Unit Task} (hi : Inv s)
    (hq : Quiet g s.pool q)
    (hd : q.destructor = s.pool.destructor ∨ s.pool.caller () = .idle ∧ s.calls = []) :
    Inv { s with pool := q } where
  script := by
    rw [← hi.script]
    exact congrArg (· ++ s.calls) hq.submitted
  closed hne := by
    rcases hd with hd | ⟨hidle, hcalls⟩
    · obtain ⟨hidle, hcalls⟩ := hi.closed (hd ▸ hne)
      exact ⟨hq.idle hidle, hcalls⟩
    · exact ⟨hq.idle hidle, hcalls⟩
  length := hi.length.trans (congrArg _ hq.ran.symm)
  printing j v hv := by
    obtain ⟨k, hpc⟩ := hi.printing j v hv
    exact ⟨k, hq.running j k .print hpc⟩
  counter := by
    rw [show ({ s with pool := q } : State n).pool.queue.ran = s.pool.queue.ran from hq.ran]
    exact hi.counter
  fetched := hi.fetched
  apart := hi.apart
  printed := by
    rw [show ({ s with pool := q } : State n).pool.queue.ran = s.pool.queue.ran from hq.ran]
    exact hi.printed
  nodup := hi.nodup
  near := hi.near

theorem step_execute {task : Task} {rest : List Task} (hi : Inv s)
    (hcalls : s.calls = task :: rest) (hd : s.pool.destructor = .alive)
    (hk : s.pool.caller () = .idle) :
    Inv { s with pool := s.pool.setCaller () (.locking task), calls := rest } where
  script := by
    rw [← hi.script, hcalls, hk]
    simp [pending]
  closed hne := absurd hd hne
  length := hi.length
  printing := hi.printing
  counter := hi.counter
  fetched := hi.fetched
  apart := hi.apart
  printed := hi.printed
  nodup := hi.nodup
  near := hi.near

theorem step_fetch {k : ℕ} (hi : Inv s) (hr : (main n).Reachable s)
    (hpc : s.pool.worker i = .running k .print) (hf : s.fetched i = none) :
    Inv { s with
      fetched := Function.update s.fetched i (some s.globalData)
      globalData := s.globalData + 1 } where
  script := hi.script
  closed := hi.closed
  length := hi.length
  printing j v hv := by
    by_cases hj : j = i
    · exact ⟨k, hj ▸ hpc⟩
    · refine hi.printing j v ?_
      dsimp only at hv
      rwa [Function.update_of_ne hj] at hv
  counter := by
    have hcard := card_fetched s i (some s.globalData)
    have hcounter := hi.counter
    rw [hf] at hcard
    dsimp only
    simp at hcard
    omega
  fetched j v hv := by
    dsimp only at hv
    by_cases hj : j = i
    · rw [hj, Function.update_self] at hv
      obtain rfl := Option.some.inj hv
      have hcounter := hi.counter
      refine ⟨by omega, Nat.lt_succ_self _, fun hmem => ?_⟩
      rcases hi.printed _ hmem with ⟨-, hlt⟩ | hran
      · exact lt_irrefl _ hlt
      · have hle := (hi.lambda_ran hr hran).1
        omega
    · rw [Function.update_of_ne hj] at hv
      obtain ⟨hge, hlt, hnew⟩ := hi.fetched j v hv
      exact ⟨hge, hlt.trans (Nat.lt_succ_self _), hnew⟩
  apart j l v hv hv' := by
    have hbelow : ∀ {m w}, m ≠ i → Function.update s.fetched i (some s.globalData) m = some w →
        s.fetched m = some w ∧ w ≠ s.globalData := by
      intro m w hm hw
      rw [Function.update_of_ne hm] at hw
      exact ⟨hw, (hi.fetched m w hw).2.1.ne⟩
    dsimp only at hv hv'
    by_cases hj : j = i
    · by_cases hl : l = i
      · rw [hj, hl]
      · rw [hj, Function.update_self] at hv
        exact absurd (Option.some.inj hv).symm (hbelow hl hv').2
    · by_cases hl : l = i
      · rw [hl, Function.update_self] at hv'
        exact absurd (Option.some.inj hv').symm (hbelow hj hv).2
      · exact hi.apart j l v (hbelow hj hv).1 (hbelow hl hv').1
  printed v hmem := by
    rcases hi.printed v hmem with ⟨hge, hlt⟩ | hran
    · exact .inl ⟨hge, hlt.trans (Nat.lt_succ_self _)⟩
    · exact .inr hran
  nodup := hi.nodup
  near := hi.near

theorem step_exit (hi : Inv s) : Inv { s with returned := true } where
  script := hi.script
  closed := hi.closed
  length := hi.length
  printing := hi.printing
  counter := hi.counter
  fetched := hi.fetched
  apart := hi.apart
  printed := hi.printed
  nodup := hi.nodup
  near := hi.near

theorem step_finish {k v : ℕ} {task : Task} (hi : Inv s) (hr : (main n).Reachable s)
    (hpc : s.pool.worker i = .running k task)
    (hv : task = .print ∧ s.fetched i = some v ∨ task = .lambda v) :
    Inv { s with
      pool := { s.pool.setWorker i .locking with queue := s.pool.queue.call ⟨i, k, task⟩ }
      fetched := Function.update s.fetched i none
      out := s.out ++ [(i, v)] } := by
  have hbefore : ∀ {j w}, Function.update s.fetched i none j = some w →
      j ≠ i ∧ s.fetched j = some w := by
    intro j w hw
    have hj : j ≠ i := by
      rintro rfl
      rw [Function.update_self] at hw
      cases hw
    rw [Function.update_of_ne hj] at hw
    exact ⟨hj, hw⟩
  have hmem := hi.number_mem hr hpc hv
  have hnew := hi.number_new hr hpc hv
  have hnumbers : (s.out ++ [(i, v)]).map Prod.snd = s.numbers ++ [v] := by
    simp [State.numbers]
  have hran : (s.pool.queue.call ⟨i, k, task⟩).ran.map Call.task =
      s.pool.queue.ran.map Call.task ++ [task] := by simp
  constructor
  case script => exact hi.script
  case closed => exact hi.closed
  case length =>
    have hlength := hi.length
    simp only [WorkQueue.call_ran, List.length_append, hlength]
    rfl
  case printing =>
    intro j w hw
    obtain ⟨hj, hw⟩ := hbefore hw
    obtain ⟨l, hl⟩ := hi.printing j w hw
    refine ⟨l, ?_⟩
    dsimp only [FixedThreadPool.State.setWorker]
    rwa [Function.update_of_ne hj]
  case counter =>
    have hcard := card_fetched s i none
    have hcounter := hi.counter
    dsimp only
    rw [hran, List.countP_append]
    rcases hv with ⟨rfl, hf⟩ | rfl
    · simp [hf, Task.prints, -List.countP_map] at hcard ⊢
      omega
    · have hf : s.fetched i = none := by
        rw [Option.eq_none_iff_forall_ne_some]
        intro w hw
        obtain ⟨l, hl⟩ := hi.printing i w hw
        rw [hpc] at hl
        cases hl
      simp [hf, Task.prints, -List.countP_map] at hcard ⊢
      omega
  case fetched =>
    intro j w hw
    obtain ⟨hj, hheld⟩ := hbefore hw
    obtain ⟨hge, hlt, hout⟩ := hi.fetched j w hheld
    refine ⟨hge, hlt, ?_⟩
    dsimp only [State.numbers]
    rw [hnumbers, List.mem_append, List.mem_singleton, not_or]
    refine ⟨hout, ?_⟩
    rintro rfl
    rcases hv with ⟨-, hf⟩ | rfl
    · exact hj (hi.apart j i w hheld hf)
    · have hle := (tasks_lambda (hi.task_at hr (held hr hpc).1)).2
      omega
  case apart =>
    intro j l w hw hw'
    exact hi.apart j l w (hbefore hw).2 (hbefore hw').2
  case printed =>
    intro w hw
    dsimp only [State.numbers] at hw ⊢
    rw [hnumbers, List.mem_append, List.mem_singleton] at hw
    rw [hran, List.mem_append, List.mem_singleton]
    rcases hw with hw | rfl
    · exact (hi.printed w hw).imp id .inl
    · rcases hv with ⟨-, hf⟩ | rfl
      · obtain ⟨hge, hlt, -⟩ := hi.fetched i w hf
        exact .inl ⟨hge, hlt⟩
      · exact .inr (.inr rfl)
  case nodup =>
    dsimp only [State.numbers]
    rw [hnumbers]
    exact hi.nodup.append (List.nodup_singleton v) (by simpa using hnew)
  case near =>
    intro j w hw
    dsimp only [State.numbers] at hw
    rw [hnumbers] at hw
    rcases lt_or_ge j s.numbers.length with hj | hj
    · rw [List.getElem?_append_left hj] at hw
      exact hi.near j w hw
    · rw [List.getElem?_append_right hj] at hw
      obtain ⟨hlast, hvw⟩ := List.getElem?_eq_some_iff.1 hw
      have hlen : s.numbers.length = s.out.length := List.length_map ..
      obtain rfl : j = s.out.length := by
        rw [List.length_singleton] at hlast
        omega
      rw [List.getElem_singleton] at hvw
      exact hvw ▸ hmem

theorem step {g : ℕ} (hi : Inv s) (hr : (main n).Reachable s) (ht : Trans s g t) : Inv t := by
  cases ht with
  | fetch i k hpc hf => exact hi.step_fetch hr hpc hf
  | finish i k task v hpc hv => exact hi.step_finish hr hpc hv
  | execute task rest hcalls hd hk => exact hi.step_execute hcalls hd hk
  | quiet _ q hq hd => exact hi.step_quiet hq hd
  | exit => exact hi.step_exit

end Inv

theorem reachable_inv (h : (main n).Reachable s) : Inv s :=
  h.invariant Inv.initial (fun hr hi hst => hi.step hr (step_trans hst))

/-- In every reachable state no number has been printed twice, and the `j`-th number
printed is among the first `j + n` numbers of the sequential output; a single worker
prints the sequential output. -/
theorem output_near_sequential (h : (main n).Reachable s) :
    s.numbers.Nodup ∧ (∀ j v, s.numbers[j]? = some v → v ∈ sequential.take (j + n)) ∧
      (n = 1 → s.numbers <+: sequential) := by
  have hi := reachable_inv h
  refine ⟨hi.nodup, hi.near, ?_⟩
  rintro rfl
  exact prefix_of_mem_take hi.nodup hi.near

/-- Two workers: the one that has taken the lambda prints before the one with `print`. -/
def overtaking : List (Act 2) :=
  List.replicate 8 (.main none) ++ List.replicate 3 (.worker ⟨0, Nat.zero_lt_two⟩) ++
    List.replicate 4 (.worker ⟨1, Nat.one_lt_two⟩)

theorem output_near_sequential_overtaking : ∃ s : State 2, (main 2).run overtaking = some s ∧
    s.numbers = [1] ∧ 1 ∈ sequential.take (0 + 2) := by
  have hrun : ((main 2).run overtaking).map State.numbers = some [1] := by decide +kernel
  obtain ⟨s, hs, hr, hv⟩ := Machine.reachable_of_run_map hrun
  exact ⟨s, hs, hv, (output_near_sequential hr).2.1 0 1 (by rw [hv]; rfl)⟩

section End

theorem returned_of_trans {g : ℕ} (ht : Trans s g t) (hs : s.returned = false)
    (h : t.returned = true) : t.pool.destructor = .done := by
  cases ht with
  | exit hd => exact hd
  | _ =>
      dsimp only at h
      rw [hs] at h
      cases h

theorem reachable_returned (h : (main n).Reachable s) :
    s.returned = true → s.pool.destructor = .done :=
  h.invariant (I := fun s : State n => s.returned = true → s.pool.destructor = .done)
    (fun h => by cases h) (fun _ _ hst => returned_of_trans (step_trans hst) (step_live hst))

/-- The steps that are left without spurious wakeups. -/
def State.total (s : State n) : ℕ :=
  rank s.pool + (places Option.isNone Finset.univ s.fetched).card + 12 * s.calls.length +
    if s.returned then 0 else 1

theorem card_unfetched (s : State n) (i : Fin n) (x : Option ℕ) :
    (places Option.isNone Finset.univ (Function.update s.fetched i x)).card +
        (if (s.fetched i).isNone then 1 else 0) =
      (places Option.isNone Finset.univ s.fetched).card + if x.isNone then 1 else 0 :=
  card_places_update (Finset.mem_univ i)

theorem total_lt {g : ℕ} (ht : Trans s g t) (hs : s.returned = false) :
    t.total < s.total + g := by
  cases ht with
  | fetch i k hpc hf =>
      have hcard := card_unfetched s i (some s.globalData)
      simp only [hf, Option.isNone_none, Option.isNone_some, if_true, Bool.false_eq_true,
        if_false] at hcard
      simp only [State.total]
      omega
  | finish i k task v hpc hv =>
      have hcard := card_unfetched s i none
      have hsum : ∑ j, weight (Function.update s.pool.worker i .locking j) + 5 =
          ∑ j, weight (s.pool.worker j) + 3 := by
        have hsum := sum_weight s.pool i .locking
        rw [hpc] at hsum
        exact hsum
      simp only [Option.isNone_none, if_true] at hcard
      simp only [State.total, rank, FixedThreadPool.State.setWorker, WorkQueue.call_tasks]
      omega
  | execute task rest hcalls hd hk =>
      simp [State.total, rank, hcalls, hk, callerWeight]
      omega
  | quiet _ q hq hd =>
      have hrank := hq.rank
      simp only [State.total]
      omega
  | exit hd =>
      simp [State.total, hs]

theorem total_init : (main n).init.total = 365 + 7 * n := by
  have htasks : tasks.length = 30 := rfl
  simp [State.total, main, rank, FixedThreadPool.initial, weight, callerWeight, destructorWeight,
    places, WorkQueue.empty, htasks]
  omega

theorem sum_gain (as : List (Act n)) : (as.map Act.gain).sum = 4 * as.countP Act.isSpurious := by
  induction as with
  | nil => rfl
  | cons a as ih =>
      rw [List.map_cons, List.sum_cons, ih, List.countP_cons]
      cases a <;> simp [Act.gain, Act.isSpurious]
      omega

theorem steps_le {as : List (Act n)} (h : (main n).run as = some s) :
    as.length ≤ 365 + 7 * n + 4 * as.countP Act.isSpurious := by
  have hlength := Machine.Reachable.length_add_le_gain State.total Act.gain
    (Machine.ReachableBy.init : (main n).Reachable (main n).init)
    (fun _ hst => total_lt (step_trans hst) (step_live hst)) h
  rw [total_init, sum_gain] at hlength
  omega

theorem lift_returned {a : FixedThreadPool.Act n Unit Task} (h : s.lift a = some t) :
    t.returned = s.returned := by
  obtain ⟨q, -, rfl⟩ := Option.map_eq_some_iff.1 h
  rfl

theorem finish_returned {v : ℕ} (h : s.finish i v = some t) : t.returned = s.returned := by
  obtain ⟨q, -, rfl⟩ := Option.map_eq_some_iff.1 h
  rfl

theorem workerStep_returned (h : workerStep s i = some t) : t.returned = s.returned := by
  unfold workerStep at h
  split at h
  case h_1 k task hpc =>
    cases task with
    | print =>
        simp only [State.body] at h
        split at h
        · cases h
          rfl
        · exact finish_returned h
    | lambda v => exact finish_returned h
  case h_2 => exact lift_returned h

theorem workerStep_none (h : workerStep s i = none) :
    FixedThreadPool.workerStep s.pool i = none := by
  unfold workerStep at h
  split at h
  case h_1 k task hpc =>
    cases task with
    | print =>
        simp only [State.body] at h
        split at h
        · cases h
        · exact Option.map_eq_none_iff.1 h
    | lambda v => exact Option.map_eq_none_iff.1 h
  case h_2 => exact Option.map_eq_none_iff.1 h

/-- The thread of `main` can only be stuck where it waits for `mtx_`. -/
theorem mainStep_none (hi : Inv s) (h : ∀ w, mainStep s w = none) :
    s.pool.mtx ≠ none ∧ (s.pool.caller ()).inside = false ∧
      s.pool.destructor.inside = false := by
  have hlift : ∀ {a}, s.lift a = none → FixedThreadPool.step s.pool a = none :=
    Option.map_eq_none_iff.1
  have hmain := h none
  unfold mainStep at hmain
  cases hk : s.pool.caller () with
  | idle =>
      simp only [hk] at hmain
      cases hcalls : s.calls with
      | cons task rest =>
          have halive : s.pool.destructor = .alive := by
            by_contra hne
            rw [(hi.closed hne).2] at hcalls
            cases hcalls
          simp [hcalls, FixedThreadPool.step, FixedThreadPool.callerStep, halive, hk] at hmain
      | nil =>
          simp only [hcalls] at hmain
          cases hd : s.pool.destructor with
          | done => simp [hd] at hmain
          | locking =>
              have hlock := hlift (by simpa only [hd] using hmain)
              simp [FixedThreadPool.step, FixedThreadPool.destructorStep, hd] at hlock
              exact ⟨hlock, rfl, rfl⟩
          | alive | holding | notifying =>
              simp [hd, State.lift, FixedThreadPool.step, FixedThreadPool.destructorStep, hk,
                FixedThreadPool.CallerPc.submitting] at hmain
  | locking task =>
      have halive : s.pool.destructor = .alive := by
        by_contra hne
        rw [(hi.closed hne).1] at hk
        cases hk
      have hlock := hlift (by simpa only [hk] using hmain)
      simp [FixedThreadPool.step, FixedThreadPool.callerStep, hk] at hlock
      exact ⟨hlock, rfl, by rw [halive]; rfl⟩
  | holding task =>
      simp [hk, State.lift, FixedThreadPool.step, FixedThreadPool.callerStep] at hmain
  | notifying =>
      obtain ⟨w, pc, hw⟩ :=
        FixedThreadPool.cond.exists_notifyOne Finset.univ s.pool.worker
      have hnotify := h w
      simp [mainStep, hk, State.lift, FixedThreadPool.step, FixedThreadPool.callerStep, hw]
        at hnotify

theorem mainStep_returned {w : Option (Fin n)} (h : mainStep s w = some t)
    (hend : ¬ (s.pool.caller () = .idle ∧ s.calls = [] ∧ s.pool.destructor = .done)) :
    t.returned = s.returned := by
  unfold mainStep at h
  split at h
  case h_1 hk =>
    split at h
    case h_1 =>
      obtain ⟨q, -, rfl⟩ := Option.map_eq_some_iff.1 h
      rfl
    case h_2 hcalls =>
      split at h
      case h_5 hd => exact absurd ⟨hk, hcalls, hd⟩ hend
      all_goals exact lift_returned h
  all_goals exact lift_returned h

/-- Nothing can happen but spurious wakeups and the return from `main`. -/
def OnlyReturn (s : State n) : Prop :=
  ∀ a t, a.isSpurious = false → step s a = some t → t.returned = true

/-- A process that outlives its workers. -/
theorem OnlyReturn.ended (hn : 1 ≤ n) (hr : (main n).Reachable s) (hs : s.returned = false)
    (h : OnlyReturn s) :
    (s.pool.caller () = .idle ∧ s.calls = [] ∧ s.pool.destructor = .done) ∧
      ∀ i, s.pool.worker i = .exited := by
  have hsleep := reachable_sleep hn (reachable_pool hr)
  have hstuck : ∀ i, FixedThreadPool.workerStep s.pool i = none := by
    intro i
    refine workerStep_none (Option.eq_none_iff_forall_ne_some.2 (fun t ht => ?_))
    have hret := h (.worker i) t rfl (by rw [step, hs]; exact ht)
    rw [workerStep_returned ht, hs] at hret
    cases hret
  have hmain : ¬ (s.pool.caller () = .idle ∧ s.calls = [] ∧ s.pool.destructor = .done) →
      s.pool.mtx ≠ none ∧ (s.pool.caller ()).inside = false ∧
        s.pool.destructor.inside = false := by
    intro hend
    refine mainStep_none (reachable_inv hr)
      (fun w => Option.eq_none_iff_forall_ne_some.2 (fun t ht => ?_))
    have hret := h (.main w) t rfl (by rw [step, hs]; exact ht)
    rw [mainStep_returned ht hend, hs] at hret
    cases hret
  have hfree : s.pool.mtx = none := by
    apply hsleep.guarded.owner_none
    intro th
    cases th with
    | worker i =>
        rcases FixedThreadPool.workerStep_stuck (hstuck i) with hi | hi | ⟨hi, -⟩ <;>
          simp [FixedThreadPool.State.inside, hi, FixedThreadPool.WorkerPc.inside]
    | caller k =>
        by_cases hend : s.pool.caller () = .idle ∧ s.calls = [] ∧ s.pool.destructor = .done
        · simp [FixedThreadPool.State.inside, hend.1, FixedThreadPool.CallerPc.inside]
        · exact (hmain hend).2.1
    | destructor =>
        by_cases hend : s.pool.caller () = .idle ∧ s.calls = [] ∧ s.pool.destructor = .done
        · simp [FixedThreadPool.State.inside, hend.2.2, FixedThreadPool.DestructorPc.inside]
        · exact (hmain hend).2.2
  have hend := not_not.1 (fun hend => (hmain hend).1 hfree)
  refine ⟨hend, fun i => ?_⟩
  rcases FixedThreadPool.workerStep_stuck (hstuck i) with hi | hi | ⟨-, hi⟩
  · exact hi
  · exact absurd hi (hsleep.awake hend.2.2 i)
  · exact absurd hfree hi

/-- A process that cannot go on has ended. -/
theorem returned_of_stuck (hn : 1 ≤ n) (hr : (main n).Reachable s)
    (h : ∀ a : Act n, a.isSpurious = false → step s a = none) : s.returned = true := by
  by_contra hs
  have hs := Bool.eq_false_iff.2 hs
  have honly : OnlyReturn s := by
    intro a t ha ht
    rw [h a ha] at ht
    cases ht
  obtain ⟨⟨hk, hcalls, hd⟩, -⟩ := honly.ended hn hr hs
  have hmain := h (.main none) rfl
  simp [step, hs, mainStep, hk, hcalls, hd] at hmain

/-- No task is queued or in the hands of a worker. -/
def Drained (s : State n) : Prop :=
  s.pool.queue.tasks = [] ∧ ∀ i, (s.pool.worker i).current = none

theorem submitted_eq (hi : Inv s) (hd : s.pool.destructor = .done) :
    s.pool.queue.submitted = tasks := by
  obtain ⟨hk, hcalls⟩ := hi.closed (by rw [hd]; nofun)
  have hscript := hi.script
  rwa [hk, hcalls, List.append_nil, show pending .idle = [] from rfl, List.append_nil] at hscript

theorem length_sequential : sequential.length = tasks.length := rfl

/-- When the pool has been destroyed and no task is left, every number has been printed. -/
theorem Drained.numbers_perm (h : Drained s) (hr : (main n).Reachable s)
    (hd : s.pool.destructor = .done) : s.numbers.Perm sequential := by
  have hi := reachable_inv hr
  have hran := ((reachable_ledger (reachable_pool hr)).ran_perm h.1 h.2).length_eq
  rw [List.length_map, submitted_eq hi hd] at hran
  have hlength : s.numbers.length = sequential.length := by
    rw [length_sequential, State.numbers, List.length_map, hi.length, hran]
  refine (List.subperm_of_subset hi.nodup (fun v hv => ?_)).perm_of_length_le hlength.ge
  obtain ⟨j, hj⟩ := List.getElem?_of_mem hv
  exact List.mem_of_mem_take (hi.near j v hj)

/-- Every number stands for a task that has been run, so no task is left. -/
theorem drained_of_length (hr : (main n).Reachable s) (hd : s.pool.destructor = .done)
    (h : s.numbers.length = sequential.length) : Drained s := by
  have hi := reachable_inv hr
  have htally := reachable_tally (f := fun _ : Task => true) (reachable_pool hr)
  have hfifo := congrArg List.length (reachable_ledger (reachable_pool hr)).fifo
  unfold Tally at htally
  simp only [List.countP_true, List.length_map] at htally
  rw [submitted_eq hi hd, List.length_append, List.length_map] at hfifo
  rw [State.numbers, List.length_map, hi.length, length_sequential] at h
  refine ⟨List.eq_nil_of_length_eq_zero (by omega), fun i => ?_⟩
  have hnone : places (busy fun _ : Task => true) Finset.univ s.pool.worker = ∅ :=
    Finset.card_eq_zero.1 (by omega)
  by_contra hcurrent
  obtain ⟨c, hc⟩ := Option.ne_none_iff_exists'.1 hcurrent
  have hmem : i ∈ places (busy fun _ : Task => true) Finset.univ s.pool.worker :=
    Finset.mem_filter.2 ⟨Finset.mem_univ i, by rw [busy, hc]; rfl⟩
  rw [hnone] at hmem
  cases hmem

/-- Every run is finite but for spurious wakeups and ends with the return from `main`, which
ends the process. Then every number has been printed exactly if no task is left; in a process
that outlives its workers they have exited and every number has been printed. -/
theorem all_printed (hn : 1 ≤ n) {as : List (Act n)} (h : (main n).run as = some s) :
    as.length ≤ 365 + 7 * n + 4 * as.countP Act.isSpurious ∧
      ((∀ a : Act n, a.isSpurious = false → (main n).step s a = none) → s.returned = true) ∧
      (s.returned = true → (s.numbers.Perm sequential ↔ Drained s)) ∧
      (s.returned = false → OnlyReturn s →
        (∀ i, s.pool.worker i = .exited) ∧ s.numbers.Perm sequential) := by
  have hr := Machine.reachable_of_run as h
  refine ⟨steps_le h, returned_of_stuck hn hr, fun hret => ?_, fun hs honly => ?_⟩
  · have hd := reachable_returned hr hret
    exact ⟨fun hperm => drained_of_length hr hd hperm.length_eq,
      fun hdrained => hdrained.numbers_perm hr hd⟩
  · obtain ⟨⟨-, -, hd⟩, hexit⟩ := honly.ended hn hr hs
    obtain ⟨-, hempty⟩ :=
      (reachable_closing (reachable_pool hr)).left ⟨0, hn⟩ (by rw [hexit]; rfl)
    have hdrained : Drained s := ⟨hempty, fun i => by rw [hexit]; rfl⟩
    exact ⟨hexit, hdrained.numbers_perm hr hd⟩

/-- One worker, which starts when `main` has made all its calls. -/
def oneWorker : List (Act 1) :=
  List.replicate 120 (.main none) ++ List.replicate 135 (.worker 0) ++
    List.replicate 4 (.main none) ++ List.replicate 3 (.worker 0)

/-- One worker, which does not run before `main` has returned. -/
def returnedEarly : List (Act 1) := List.replicate 125 (.main none)

/-- The process that outlives its worker has printed every number when it ends, and the one
that does not wait has printed nothing. -/
theorem all_printed_oneWorker :
    (∃ s : State 1, (main 1).run oneWorker = some s ∧ s.returned = false ∧ OnlyReturn s ∧
      s.numbers.Perm sequential) ∧
    ∃ s : State 1, (main 1).run returnedEarly = some s ∧ s.returned = true ∧
      ¬ s.numbers.Perm sequential := by
  constructor
  · have hrun : ((main 1).run oneWorker).map (fun s => ((s.pool.caller (), s.calls,
        s.pool.destructor), (workerStep s 0).isNone, s.returned)) =
          some ((.idle, [], .done), true, false) := by decide +kernel
    obtain ⟨s, hs, -, hv⟩ := Machine.reachable_of_run_map hrun
    obtain ⟨hmain, hv⟩ := Prod.mk.inj hv
    obtain ⟨hnone, hlive⟩ := Prod.mk.inj hv
    obtain ⟨hk, hrest⟩ := Prod.mk.inj hmain
    obtain ⟨hcalls, hd⟩ := Prod.mk.inj hrest
    have honly : OnlyReturn s := by
      intro a t ha ht
      rw [step.eq_def, hlive] at ht
      cases a with
      | worker i =>
          dsimp only at ht
          rw [Fin.fin_one_eq_zero i] at ht
          simp [Option.isNone_iff_eq_none.1 hnone] at ht
      | spurious i => cases ha
      | main w =>
          simp only [mainStep, hk, hcalls, hd] at ht
          cases ht
          rfl
    exact ⟨s, hs, hlive, honly, ((all_printed le_rfl hs).2.2.2 hlive honly).2⟩
  · have hrun : ((main 1).run returnedEarly).map (fun s =>
        (s.returned, s.pool.queue.tasks.isEmpty)) = some (true, false) := by decide +kernel
    obtain ⟨s, hs, -, hv⟩ := Machine.reachable_of_run_map hrun
    obtain ⟨hret, hqueue⟩ := Prod.mk.inj hv
    refine ⟨s, hs, hret, fun hperm => ?_⟩
    rw [(((all_printed le_rfl hs).2.2.1 hret).1 hperm).1] at hqueue
    cases hqueue

end End

end Londa.FixedThreadPoolMain
