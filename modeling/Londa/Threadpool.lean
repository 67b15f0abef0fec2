import Londa.Machine
import Londa.WorkQueue

/-!
# The thread pool with futures

Model of `std::threadpool` in `code/boost_doc/Function/threadpool.cpp`. Workers
are numbered in the order in which the constructor adds them to `pool`; the
constructor, the workers, the threads that call `commit` and the destructor
interleave statement by statement. `cv_task.wait(lock, pred)` is the loop
`pred → waiting → blocked → relocking → pred`: the predicate is evaluated under
`m_lock` and, where it is false, the worker releases the lock and blocks in one
step. The flag `stoped` is an atomic that the destructor stores without the lock.

A call of `commit` is made on a constructed pool and returns before the
destructor is entered. `queue` holds `tasks` and its history.
-/

namespace Londa.Threadpool

inductive WorkerPc (τ : Type*)
  | unborn
  | test
  | locking
  | pred
  | waiting
  | blocked
  | relocking
  | check
  | popped (ticket : ℕ) (task : τ)
  | taken (ticket : ℕ) (task : τ)
  | running (ticket : ℕ) (task : τ)
  | ran
  | returning
  | exited
  | fault
  deriving DecidableEq

inductive CommitterPc (τ : Type*)
  | idle
  | locking (task : τ)
  | holding (task : τ)
  | notifying
  deriving DecidableEq

/-- The constructor's loop; the argument is its `unsigned short` index `size`. -/
inductive ConstructorPc
  | test (size : ℕ)
  | emplace (size : ℕ)
  | done
  deriving DecidableEq

inductive DestructorPc
  | alive
  | storing
  | notifying
  | joining (next : ℕ)
  | joined
  deriving DecidableEq

inductive Thread (κ : Type*)
  | worker (i : ℕ)
  | committer (k : κ)
  deriving DecidableEq

structure State (κ τ : Type*) where
  mLock : Option (Thread κ)
  stoped : Bool
  idlThrNum : ℤ
  queue : WorkQueue ℕ τ
  created : ℕ
  worker : ℕ → WorkerPc τ
  committer : κ → CommitterPc τ
  rejected : List τ
  ctor : ConstructorPc
  destructor : DestructorPc

inductive Act (κ τ : Type*)
  | construct
  | worker (i : ℕ)
  | spurious (i : ℕ)
  | commit (k : κ) (task : τ)
  | lockCommitter (k : κ)
  | push (k : κ)
  | notifyOne (k : κ) (w : Option ℕ)
  | destroy
  | store
  | notifyAll
  | join

variable {κ τ : Type*}

/-- A call of `commit` is in progress. -/
def CommitterPc.busy : CommitterPc τ → Bool
  | .idle => false
  | _ => true

def cvTask : CondVar (WorkerPc τ) where
  blocked
    | .blocked => true
    | _ => false
  wake _ := .relocking
  wake_not_blocked _ _ := rfl

theorem cvTask_wake_frame {β : Type*} (f : WorkerPc τ → β) (hf : f .relocking = f .blocked)
    (p : WorkerPc τ) (hb : cvTask.blocked p) : f (cvTask.wake p) = f p := by
  cases p with
  | blocked => exact hf
  | _ => cases hb

@[simps] def State.setWorker (s : State κ τ) (i : ℕ) (p : WorkerPc τ) : State κ τ :=
  { s with worker := Function.update s.worker i p }

@[simps] def State.setCommitter [DecidableEq κ] (s : State κ τ) (k : κ) (p : CommitterPc τ) :
    State κ τ :=
  { s with committer := Function.update s.committer k p }

/-- The constructor's loop. The new worker starts at its loop test. -/
def constructorStep (s : State κ τ) : Option (State κ τ) :=
  match s.ctor with
  | .test size =>
      if (size : ℤ) < s.idlThrNum then some { s with ctor := .emplace size }
      else some { s with ctor := .done }
  | .emplace size => some { s.setWorker s.created .test with
      created := s.created + 1, ctor := .test ((size + 1) % 65536) }
  | .done => none

/-- The worker lambda. -/
def workerStep (s : State κ τ) (i : ℕ) : Option (State κ τ) :=
  match s.worker i with
  | .unborn => none
  | .test => if s.stoped then some (s.setWorker i .exited) else some (s.setWorker i .locking)
  | .locking =>
      if s.mLock = none then some { s.setWorker i .pred with mLock := some (.worker i) } else none
  | .pred =>
      if s.stoped ∨ s.queue.tasks ≠ [] then some (s.setWorker i .check)
      else some (s.setWorker i .waiting)
  | .waiting => some { s.setWorker i .blocked with mLock := none }
  | .blocked => none
  | .relocking =>
      if s.mLock = none then some { s.setWorker i .pred with mLock := some (.worker i) } else none
  | .check =>
      match s.queue.tasks with
      | [] => if s.stoped then some (s.setWorker i .returning) else some (s.setWorker i .fault)
      | t :: rest => some { s.setWorker i (.popped s.queue.dequeued.length t) with
          queue := s.queue.pop i t rest }
  | .popped k t => some { s.setWorker i (.taken k t) with mLock := none }
  | .taken k t => some { s.setWorker i (.running k t) with idlThrNum := s.idlThrNum - 1 }
  | .running k t => some { s.setWorker i .ran with queue := s.queue.call ⟨i, k, t⟩ }
  | .ran => some { s.setWorker i .test with idlThrNum := s.idlThrNum + 1 }
  | .returning => some { s.setWorker i .exited with mLock := none }
  | .exited => none
  | .fault => none

variable [DecidableEq κ]

/-- `commit`: the flag is tested first, the push is made under `m_lock`. -/
def committerStep (s : State κ τ) (k : κ) : Act κ τ → Option (State κ τ)
  | .commit _ task =>
      if s.ctor = .done ∧ s.destructor = .alive then
        match s.committer k with
        | .idle => if s.stoped then some { s with rejected := s.rejected ++ [task] }
            else some (s.setCommitter k (.locking task))
        | _ => none
      else none
  | .lockCommitter _ =>
      match s.committer k with
      | .locking task =>
          if s.mLock = none then
            some { s.setCommitter k (.holding task) with mLock := some (.committer k) }
          else none
      | _ => none
  | .push _ =>
      match s.committer k with
      | .holding task => some { s.setCommitter k .notifying with
          mLock := none, queue := s.queue.push task }
      | _ => none
  | .notifyOne _ w =>
      match s.committer k with
      | .notifying => (cvTask.notifyOne (Finset.range s.created) s.worker w).map (fun pc =>
          { s.setCommitter k .idle with worker := pc })
      | _ => none
  | _ => none

/-- What a step can do, one case for each branch of the source. -/
inductive Trans (s : State κ τ) : Act κ τ → State κ τ → Prop
  | more (size : ℕ) (hc : s.ctor = .test size) (hlt : (size : ℤ) < s.idlThrNum) :
      Trans s .construct { s with ctor := .emplace size }
  | constructed (size : ℕ) (hc : s.ctor = .test size) (hge : ¬ (size : ℤ) < s.idlThrNum) :
      Trans s .construct { s with ctor := .done }
  | emplace (size : ℕ) (hc : s.ctor = .emplace size) :
      Trans s .construct { s.setWorker s.created .test with
        created := s.created + 1, ctor := .test ((size + 1) % 65536) }
  | stop (i : ℕ) (hpc : s.worker i = .test) (hd : s.stoped = true) :
      Trans s (.worker i) (s.setWorker i .exited)
  | loop (i : ℕ) (hpc : s.worker i = .test) (hd : s.stoped = false) :
      Trans s (.worker i) (s.setWorker i .locking)
  | lock (i : ℕ) (hpc : s.worker i = .locking) (hfree : s.mLock = none) :
      Trans s (.worker i) { s.setWorker i .pred with mLock := some (.worker i) }
  | go (i : ℕ) (hpc : s.worker i = .pred) (hp : s.stoped = true ∨ s.queue.tasks ≠ []) :
      Trans s (.worker i) (s.setWorker i .check)
  | wait (i : ℕ) (hpc : s.worker i = .pred) (hd : s.stoped = false) (hq : s.queue.tasks = []) :
      Trans s (.worker i) (s.setWorker i .waiting)
  | block (i : ℕ) (hpc : s.worker i = .waiting) :
      Trans s (.worker i) { s.setWorker i .blocked with mLock := none }
  | relock (i : ℕ) (hpc : s.worker i = .relocking) (hfree : s.mLock = none) :
      Trans s (.worker i) { s.setWorker i .pred with mLock := some (.worker i) }
  | leave (i : ℕ) (hpc : s.worker i = .check) (hq : s.queue.tasks = []) (hd : s.stoped = true) :
      Trans s (.worker i) (s.setWorker i .returning)
  | fault (i : ℕ) (hpc : s.worker i = .check) (hq : s.queue.tasks = []) (hd : s.stoped = false) :
      Trans s (.worker i) (s.setWorker i .fault)
  | pop (i : ℕ) (t : τ) (rest : List τ) (hpc : s.worker i = .check)
      (hq : s.queue.tasks = t :: rest) :
      Trans s (.worker i) { s.setWorker i (.popped s.queue.dequeued.length t) with
        queue := s.queue.pop i t rest }
  | unlock (i k : ℕ) (t : τ) (hpc : s.worker i = .popped k t) :
      Trans s (.worker i) { s.setWorker i (.taken k t) with mLock := none }
  | decrease (i k : ℕ) (t : τ) (hpc : s.worker i = .taken k t) :
      Trans s (.worker i) { s.setWorker i (.running k t) with idlThrNum := s.idlThrNum - 1 }
  | call (i k : ℕ) (t : τ) (hpc : s.worker i = .running k t) :
      Trans s (.worker i) { s.setWorker i .ran with queue := s.queue.call ⟨i, k, t⟩ }
  | increase (i : ℕ) (hpc : s.worker i = .ran) :
      Trans s (.worker i) { s.setWorker i .test with idlThrNum := s.idlThrNum + 1 }
  | exit (i : ℕ) (hpc : s.worker i = .returning) :
      Trans s (.worker i) { s.setWorker i .exited with mLock := none }
  | spurious (i : ℕ) (hpc : s.worker i = .blocked) :
      Trans s (.spurious i) (s.setWorker i .relocking)
  | reject (k : κ) (t : τ) (hc : s.ctor = .done) (hd : s.destructor = .alive)
      (hpc : s.committer k = .idle) (hs : s.stoped = true) :
      Trans s (.commit k t) { s with rejected := s.rejected ++ [t] }
  | commit (k : κ) (t : τ) (hc : s.ctor = .done) (hd : s.destructor = .alive)
      (hpc : s.committer k = .idle) (hs : s.stoped = false) :
      Trans s (.commit k t) (s.setCommitter k (.locking t))
  | lockCommitter (k : κ) (t : τ) (hpc : s.committer k = .locking t) (hfree : s.mLock = none) :
      Trans s (.lockCommitter k) { s.setCommitter k (.holding t) with mLock := some (.committer k) }
  | push (k : κ) (t : τ) (hpc : s.committer k = .holding t) :
      Trans s (.push k) { s.setCommitter k .notifying with mLock := none, queue := s.queue.push t }
  | notifyOne (k : κ) (w : Option ℕ) (pc : ℕ → WorkerPc τ) (hpc : s.committer k = .notifying)
      (hw : cvTask.notifyOne (Finset.range s.created) s.worker w = some pc) :
      Trans s (.notifyOne k w) { s.setCommitter k .idle with worker := pc }
  | destroy (hc : s.ctor = .done) (hd : s.destructor = .alive)
      (hk : ∀ k, (s.committer k).busy = false) : Trans s .destroy { s with destructor := .storing }
  | store (hd : s.destructor = .storing) :
      Trans s .store { s with destructor := .notifying, stoped := true }
  | notifyAll (hd : s.destructor = .notifying) :
      Trans s .notifyAll { s with
        destructor := .joining 0, worker := cvTask.notifyAll s.worker }
  | join (j : ℕ) (hd : s.destructor = .joining j) (hj : j < s.created)
      (hpc : s.worker j = .exited) : Trans s .join { s with destructor := .joining (j + 1) }
  | joined (j : ℕ) (hd : s.destructor = .joining j) (hj : ¬ j < s.created) :
      Trans s .join { s with destructor := .joined }

theorem constructorStep_trans {s t : State κ τ} (h : constructorStep s = some t) :
    Trans s .construct t := by
  unfold constructorStep at h
  split at h
  case h_1 size hc =>
    split_ifs at h with hlt
    · exact Option.some.inj h ▸ .more size hc hlt
    · exact Option.some.inj h ▸ .constructed size hc hlt
  case h_2 size hc => exact Option.some.inj h ▸ .emplace size hc
  case h_3 => cases h

theorem workerStep_trans {s t : State κ τ} {i : ℕ} (h : workerStep s i = some t) :
    Trans s (.worker i) t := by
  unfold workerStep at h
  split at h
  case h_1 => cases h
  case h_2 hpc =>
    split_ifs at h with hd
    · exact Option.some.inj h ▸ .stop i hpc hd
    · exact Option.some.inj h ▸ .loop i hpc (by simpa using hd)
  case h_3 hpc =>
    split_ifs at h with hfree
    exact Option.some.inj h ▸ .lock i hpc hfree
  case h_4 hpc =>
    split_ifs at h with hp
    · exact Option.some.inj h ▸ .go i hpc hp
    · obtain ⟨hd, hq⟩ := not_or.1 hp
      exact Option.some.inj h ▸ .wait i hpc (by simpa using hd) (by simpa using hq)
  case h_5 hpc => exact Option.some.inj h ▸ .block i hpc
  case h_6 => cases h
  case h_7 hpc =>
    split_ifs at h with hfree
    exact Option.some.inj h ▸ .relock i hpc hfree
  case h_8 hpc =>
    split at h
    case h_1 hq =>
      split_ifs at h with hd
      · exact Option.some.inj h ▸ .leave i hpc hq hd
      · exact Option.some.inj h ▸ .fault i hpc hq (by simpa using hd)
    case h_2 t rest hq => exact Option.some.inj h ▸ .pop i t rest hpc hq
  case h_9 k t hpc => exact Option.some.inj h ▸ .unlock i k t hpc
  case h_10 k t hpc => exact Option.some.inj h ▸ .decrease i k t hpc
  case h_11 k t hpc => exact Option.some.inj h ▸ .call i k t hpc
  case h_12 hpc => exact Option.some.inj h ▸ .increase i hpc
  case h_13 hpc => exact Option.some.inj h ▸ .exit i hpc
  case h_14 => cases h
  case h_15 => cases h

theorem commit_trans {s t : State κ τ} {k : κ} {x : τ}
    (h : committerStep s k (.commit k x) = some t) : Trans s (.commit k x) t := by
  simp only [committerStep] at h
  split_ifs at h with hc hs
  · split at h
    case h_1 hpc => exact Option.some.inj h ▸ .reject k x hc.1 hc.2 hpc hs
    case h_2 => cases h
  · split at h
    case h_1 hpc => exact Option.some.inj h ▸ .commit k x hc.1 hc.2 hpc (by simpa using hs)
    case h_2 => cases h

theorem lockCommitter_trans {s t : State κ τ} {k : κ}
    (h : committerStep s k (.lockCommitter k) = some t) : Trans s (.lockCommitter k) t := by
  simp only [committerStep] at h
  split at h
  case h_1 x hpc =>
    split_ifs at h with hfree
    exact Option.some.inj h ▸ .lockCommitter k x hpc hfree
  case h_2 => cases h

theorem push_trans {s t : State κ τ} {k : κ} (h : committerStep s k (.push k) = some t) :
    Trans s (.push k) t := by
  simp only [committerStep] at h
  split at h
  case h_1 x hpc => exact Option.some.inj h ▸ .push k x hpc
  case h_2 => cases h

theorem notifyOne_trans {s t : State κ τ} {k : κ} {w : Option ℕ}
    (h : committerStep s k (.notifyOne k w) = some t) : Trans s (.notifyOne k w) t := by
  simp only [committerStep] at h
  split at h
  case h_1 hpc =>
    obtain ⟨pc, hw, rfl⟩ := Option.map_eq_some_iff.1 h
    exact .notifyOne k w pc hpc hw
  case h_2 => cases h

variable [Fintype κ]

/-- The destructor: the flag is stored and the workers are notified without
`m_lock`, then the workers are joined in the order of `pool`. -/
def destructorStep (s : State κ τ) : Act κ τ → Option (State κ τ)
  | .destroy =>
      if s.ctor = .done ∧ s.destructor = .alive ∧ ∀ k, (s.committer k).busy = false then
        some { s with destructor := .storing } else none
  | .store =>
      if s.destructor = .storing then
        some { s with destructor := .notifying, stoped := true } else none
  | .notifyAll =>
      if s.destructor = .notifying then
        some { s with destructor := .joining 0, worker := cvTask.notifyAll s.worker } else none
  | .join =>
      match s.destructor with
      | .joining j =>
          if j < s.created then
            match s.worker j with
            | .exited => some { s with destructor := .joining (j + 1) }
            | _ => none
          else some { s with destructor := .joined }
      | _ => none
  | _ => none

def step (s : State κ τ) (a : Act κ τ) : Option (State κ τ) :=
  match a with
  | .construct => constructorStep s
  | .worker i => workerStep s i
  | .spurious i =>
      match s.worker i with
      | .blocked => some (s.setWorker i .relocking)
      | _ => none
  | .commit k _ | .lockCommitter k | .push k | .notifyOne k _ => committerStep s k a
  | .destroy | .store | .notifyAll | .join => destructorStep s a

/-- The constructor's argument decides the counter that bounds its loop. -/
def initial (size : ℕ) (κ τ : Type*) : State κ τ where
  mLock := none
  stoped := false
  idlThrNum := if size < 1 then 1 else size
  queue := .empty
  created := 0
  worker _ := .unborn
  committer _ := .idle
  rejected := []
  ctor := .test 0
  destructor := .alive

def pool (size : ℕ) (κ τ : Type*) [DecidableEq κ] [Fintype κ] : Machine (State κ τ) (Act κ τ) where
  init := initial size κ τ
  step := step

theorem destructorStep_trans {s t : State κ τ} {a : Act κ τ} (h : destructorStep s a = some t) :
    Trans s a t := by
  cases a with
  | destroy =>
      simp only [destructorStep] at h
      split_ifs at h with hd
      exact Option.some.inj h ▸ .destroy hd.1 hd.2.1 hd.2.2
  | store =>
      simp only [destructorStep] at h
      split_ifs at h with hd
      exact Option.some.inj h ▸ .store hd
  | notifyAll =>
      simp only [destructorStep] at h
      split_ifs at h with hd
      exact Option.some.inj h ▸ .notifyAll hd
  | join =>
      simp only [destructorStep] at h
      split at h
      case h_1 j hd =>
        split_ifs at h with hj
        · split at h
          case h_1 hpc => exact Option.some.inj h ▸ .join j hd hj hpc
          case h_2 => cases h
        · exact Option.some.inj h ▸ .joined j hd hj
      case h_2 => cases h
  | _ => simp [destructorStep] at h

theorem step_trans {size : ℕ} {s t : State κ τ} {a : Act κ τ}
    (h : (pool size κ τ).step s a = some t) : Trans s a t := by
  change step s a = some t at h
  cases a with
  | construct => exact constructorStep_trans h
  | worker i => exact workerStep_trans h
  | spurious i =>
      simp only [step] at h
      split at h
      case h_1 hpc => exact Option.some.inj h ▸ .spurious i hpc
      case h_2 => cases h
  | commit k x => exact commit_trans h
  | lockCommitter k => exact lockCommitter_trans h
  | push k => exact push_trans h
  | notifyOne k w => exact notifyOne_trans h
  | destroy => exact destructorStep_trans (a := .destroy) h
  | store => exact destructorStep_trans (a := .store) h
  | notifyAll => exact destructorStep_trans (a := .notifyAll) h
  | join => exact destructorStep_trans (a := .join) h

end Londa.Threadpool
