import Londa.Machine
import Londa.WorkQueue

/-!
# The fixed thread pool

Model of `fixed_thread_pool` in `code/concurrent/threadpool.cpp` (the class is
repeated in `code/concurrent/sum.cpp`). The state has the fields of the shared
`data` record, the owner of `mtx_`, and the program counters of the workers, of
the threads that call `execute`, and of the destructor. One action is one
statement of one thread; `spurious` is a wakeup of `cond_.wait` that no notify
caused. The field `queue` holds `tasks_` and its history; a worker keeps the
ticket of the task it moved to `current`.

The calls of `execute` are made before the destructor: a call is issued only
while the pool is alive, and the destructor starts when every issued call has
pushed its task. Its `notify_one` may still be outstanding.
-/

namespace Londa.FixedThreadPool

inductive WorkerPc (τ : Type*)
  | locking
  | head
  | popped (ticket : ℕ) (current : τ)
  | running (ticket : ℕ) (current : τ)
  | waiting
  | blocked
  | leaving
  | exited
  deriving DecidableEq

inductive CallerPc (τ : Type*)
  | idle
  | locking (task : τ)
  | holding (task : τ)
  | notifying
  deriving DecidableEq

inductive DestructorPc
  | alive
  | locking
  | holding
  | notifying
  | done
  deriving DecidableEq

inductive Thread (n : ℕ) (κ : Type*)
  | worker (i : Fin n)
  | caller (k : κ)
  | destructor
  deriving DecidableEq

structure State (n : ℕ) (κ τ : Type*) where
  mtx : Option (Thread n κ)
  isShutdown : Bool
  queue : WorkQueue (Fin n) τ
  worker : Fin n → WorkerPc τ
  caller : κ → CallerPc τ
  destructor : DestructorPc

inductive Act (n : ℕ) (κ τ : Type*)
  | worker (i : Fin n)
  | spurious (i : Fin n)
  | execute (k : κ) (task : τ)
  | lockCaller (k : κ)
  | push (k : κ)
  | notifyOne (k : κ) (w : Option (Fin n))
  | destroy
  | lockDestructor
  | shutdown
  | notifyAll

variable {n : ℕ} {κ τ : Type*}

/-- A call of `execute` that has not pushed its task yet. -/
def CallerPc.submitting : CallerPc τ → Bool
  | .locking _ => true
  | .holding _ => true
  | _ => false

/-- The condition variable `cond_`: a woken worker has to take `mtx_` again. -/
def cond : CondVar (WorkerPc τ) where
  blocked
    | .blocked => true
    | _ => false
  wake _ := .locking
  wake_not_blocked _ _ := rfl

/-- Waking turns `blocked` into `locking`, so it keeps what does not tell them apart. -/
theorem cond_wake_frame {β : Type*} (f : WorkerPc τ → β) (hf : f .locking = f .blocked)
    (p : WorkerPc τ) (hb : cond.blocked p) : f (cond.wake p) = f p := by
  cases p with
  | blocked => exact hf
  | _ => cases hb

variable [DecidableEq κ]

@[simps] def State.setWorker (s : State n κ τ) (i : Fin n) (p : WorkerPc τ) : State n κ τ :=
  { s with worker := Function.update s.worker i p }

@[simps] def State.setCaller (s : State n κ τ) (k : κ) (p : CallerPc τ) : State n κ τ :=
  { s with caller := Function.update s.caller k p }

/-- The worker lambda. `locking` stands for the construction of `lk`, for
`lk.lock()` after a task, and for the end of `cond_.wait`. -/
def workerStep (s : State n κ τ) (i : Fin n) : Option (State n κ τ) :=
  match s.worker i with
  | .locking =>
      if s.mtx = none then some { s.setWorker i .head with mtx := some (.worker i) } else none
  | .head =>
      match s.queue.tasks with
      | t :: rest => some { s.setWorker i (.popped s.queue.dequeued.length t) with
          queue := s.queue.pop i t rest }
      | [] => if s.isShutdown then some (s.setWorker i .leaving) else some (s.setWorker i .waiting)
  | .popped k t => some { s.setWorker i (.running k t) with mtx := none }
  | .running k t => some { s.setWorker i .locking with queue := s.queue.call ⟨i, k, t⟩ }
  | .waiting => some { s.setWorker i .blocked with mtx := none }
  | .leaving => some { s.setWorker i .exited with mtx := none }
  | .blocked => none
  | .exited => none

/-- `execute`: the push is made under `mtx_`, the notification after it. -/
def callerStep (s : State n κ τ) (k : κ) : Act n κ τ → Option (State n κ τ)
  | .execute _ task =>
      if s.destructor = .alive then
        match s.caller k with
        | .idle => some (s.setCaller k (.locking task))
        | _ => none
      else none
  | .lockCaller _ =>
      match s.caller k with
      | .locking task =>
          if s.mtx = none then some { s.setCaller k (.holding task) with mtx := some (.caller k) }
          else none
      | _ => none
  | .push _ =>
      match s.caller k with
      | .holding task => some { s.setCaller k .notifying with
          mtx := none, queue := s.queue.push task }
      | _ => none
  | .notifyOne _ w =>
      match s.caller k with
      | .notifying => (cond.notifyOne Finset.univ s.worker w).map (fun pc =>
          { s.setCaller k .idle with worker := pc })
      | _ => none
  | _ => none

/-- What a step can do, one case for each branch of the source. -/
inductive Trans (s : State n κ τ) : State n κ τ → Prop
  | lock (i : Fin n) (hpc : s.worker i = .locking) (hfree : s.mtx = none) :
      Trans s { s.setWorker i .head with mtx := some (.worker i) }
  | pop (i : Fin n) (t : τ) (rest : List τ) (hpc : s.worker i = .head)
      (hq : s.queue.tasks = t :: rest) :
      Trans s { s.setWorker i (.popped s.queue.dequeued.length t) with
        queue := s.queue.pop i t rest }
  | leave (i : Fin n) (hpc : s.worker i = .head) (hq : s.queue.tasks = [])
      (hd : s.isShutdown = true) :
      Trans s (s.setWorker i .leaving)
  | wait (i : Fin n) (hpc : s.worker i = .head) (hq : s.queue.tasks = [])
      (hd : s.isShutdown = false) :
      Trans s (s.setWorker i .waiting)
  | unlock (i : Fin n) (k : ℕ) (t : τ) (hpc : s.worker i = .popped k t) :
      Trans s { s.setWorker i (.running k t) with mtx := none }
  | call (i : Fin n) (k : ℕ) (t : τ) (hpc : s.worker i = .running k t) :
      Trans s { s.setWorker i .locking with queue := s.queue.call ⟨i, k, t⟩ }
  | block (i : Fin n) (hpc : s.worker i = .waiting) :
      Trans s { s.setWorker i .blocked with mtx := none }
  | exit (i : Fin n) (hpc : s.worker i = .leaving) :
      Trans s { s.setWorker i .exited with mtx := none }
  | spurious (i : Fin n) (hpc : s.worker i = .blocked) : Trans s (s.setWorker i .locking)
  | execute (k : κ) (task : τ) (hd : s.destructor = .alive) (hpc : s.caller k = .idle) :
      Trans s (s.setCaller k (.locking task))
  | lockCaller (k : κ) (task : τ) (hpc : s.caller k = .locking task) (hfree : s.mtx = none) :
      Trans s { s.setCaller k (.holding task) with mtx := some (.caller k) }
  | push (k : κ) (task : τ) (hpc : s.caller k = .holding task) :
      Trans s { s.setCaller k .notifying with
        mtx := none, queue := s.queue.push task }
  | notifyOne (k : κ) (w : Option (Fin n)) (pc : Fin n → WorkerPc τ)
      (hpc : s.caller k = .notifying) (hw : cond.notifyOne Finset.univ s.worker w = some pc) :
      Trans s { s.setCaller k .idle with worker := pc }
  | destroy (hd : s.destructor = .alive) (hk : ∀ k, (s.caller k).submitting = false) :
      Trans s { s with destructor := .locking }
  | lockDestructor (hd : s.destructor = .locking) (hfree : s.mtx = none) :
      Trans s { s with destructor := .holding, mtx := some .destructor }
  | shutdown (hd : s.destructor = .holding) :
      Trans s { s with destructor := .notifying, mtx := none, isShutdown := true }
  | notifyAll (hd : s.destructor = .notifying) :
      Trans s { s with destructor := .done, worker := cond.notifyAll s.worker }

theorem workerStep_trans {s t : State n κ τ} {i : Fin n} (h : workerStep s i = some t) :
    Trans s t := by
  unfold workerStep at h
  split at h
  case h_1 hpc =>
    split_ifs at h with hfree
    exact Option.some.inj h ▸ .lock i hpc hfree
  case h_2 hpc =>
    split at h
    case h_1 t rest hq => exact Option.some.inj h ▸ .pop i t rest hpc hq
    case h_2 hq =>
      split_ifs at h with hd
      · exact Option.some.inj h ▸ .leave i hpc hq hd
      · exact Option.some.inj h ▸ .wait i hpc hq (by simpa using hd)
  case h_3 k t hpc => exact Option.some.inj h ▸ .unlock i k t hpc
  case h_4 k t hpc => exact Option.some.inj h ▸ .call i k t hpc
  case h_5 hpc => exact Option.some.inj h ▸ .block i hpc
  case h_6 hpc => exact Option.some.inj h ▸ .exit i hpc
  case h_7 => cases h
  case h_8 => cases h

theorem callerStep_trans {s t : State n κ τ} {k : κ} {a : Act n κ τ}
    (h : callerStep s k a = some t) : Trans s t := by
  cases a with
  | execute _ task =>
      simp only [callerStep] at h
      split_ifs at h with hd
      split at h
      case h_1 hpc => exact Option.some.inj h ▸ .execute k task hd hpc
      case h_2 => cases h
  | lockCaller _ =>
      simp only [callerStep] at h
      split at h
      case h_1 task hpc =>
        split_ifs at h with hfree
        exact Option.some.inj h ▸ .lockCaller k task hpc hfree
      case h_2 => cases h
  | push _ =>
      simp only [callerStep] at h
      split at h
      case h_1 task hpc => exact Option.some.inj h ▸ .push k task hpc
      case h_2 => cases h
  | notifyOne _ w =>
      simp only [callerStep] at h
      split at h
      case h_1 hpc =>
        obtain ⟨pc, hw, rfl⟩ := Option.map_eq_some_iff.1 h
        exact .notifyOne k w pc hpc hw
      case h_2 => cases h
  | _ => simp [callerStep] at h

variable [Fintype κ]

/-- The destructor: `is_shutdown_` is set under `mtx_`, then all are notified. -/
def destructorStep (s : State n κ τ) : Act n κ τ → Option (State n κ τ)
  | .destroy =>
      if s.destructor = .alive ∧ ∀ k, (s.caller k).submitting = false then
        some { s with destructor := .locking } else none
  | .lockDestructor =>
      if s.destructor = .locking ∧ s.mtx = none then
        some { s with destructor := .holding, mtx := some .destructor } else none
  | .shutdown =>
      if s.destructor = .holding then
        some { s with destructor := .notifying, mtx := none, isShutdown := true } else none
  | .notifyAll =>
      if s.destructor = .notifying then
        some { s with destructor := .done, worker := cond.notifyAll s.worker } else none
  | _ => none

def step (s : State n κ τ) (a : Act n κ τ) : Option (State n κ τ) :=
  match a with
  | .worker i => workerStep s i
  | .spurious i =>
      match s.worker i with
      | .blocked => some (s.setWorker i .locking)
      | _ => none
  | .execute k _ | .lockCaller k | .push k | .notifyOne k _ => callerStep s k a
  | .destroy | .lockDestructor | .shutdown | .notifyAll => destructorStep s a

/-- The constructor: `thread_count` workers over an empty queue. -/
def initial (n : ℕ) (κ τ : Type*) : State n κ τ where
  mtx := none
  isShutdown := false
  queue := .empty
  worker _ := .locking
  caller _ := .idle
  destructor := .alive

def pool (n : ℕ) (κ τ : Type*) [DecidableEq κ] [Fintype κ] : Machine (State n κ τ) (Act n κ τ) where
  init := initial n κ τ
  step := step

theorem destructorStep_trans {s t : State n κ τ} {a : Act n κ τ}
    (h : destructorStep s a = some t) : Trans s t := by
  cases a with
  | destroy =>
      simp only [destructorStep] at h
      split_ifs at h with hd
      exact Option.some.inj h ▸ .destroy hd.1 hd.2
  | lockDestructor =>
      simp only [destructorStep] at h
      split_ifs at h with hd
      exact Option.some.inj h ▸ .lockDestructor hd.1 hd.2
  | shutdown =>
      simp only [destructorStep] at h
      split_ifs at h with hd
      exact Option.some.inj h ▸ .shutdown hd
  | notifyAll =>
      simp only [destructorStep] at h
      split_ifs at h with hd
      exact Option.some.inj h ▸ .notifyAll hd
  | _ => simp [destructorStep] at h

theorem step_trans {s t : State n κ τ} {a : Act n κ τ} (h : (pool n κ τ).step s a = some t) :
    Trans s t := by
  change step s a = some t at h
  cases a with
  | worker i => exact workerStep_trans h
  | spurious i =>
      simp only [step] at h
      split at h
      case h_1 hpc => exact Option.some.inj h ▸ .spurious i hpc
      case h_2 => cases h
  | execute k task => exact callerStep_trans (k := k) (a := .execute k task) h
  | lockCaller k => exact callerStep_trans (k := k) (a := .lockCaller k) h
  | push k => exact callerStep_trans (k := k) (a := .push k) h
  | notifyOne k w => exact callerStep_trans (k := k) (a := .notifyOne k w) h
  | destroy => exact destructorStep_trans (a := .destroy) h
  | lockDestructor => exact destructorStep_trans (a := .lockDestructor) h
  | shutdown => exact destructorStep_trans (a := .shutdown) h
  | notifyAll => exact destructorStep_trans (a := .notifyAll) h

end Londa.FixedThreadPool
