import Londa.Counting
import Londa.ThreadpoolCount

/-!
# Every task committed to the thread pool is run

What the users of `commit` rely on as long as the pool is not destroyed. The queue
and the decision to sleep are guarded by `m_lock`, so a worker that got through
`cv_task.wait` finds a task (`front()` is never called on an empty queue), and a
task is never queued behind sleeping workers only, unless its `notify_one` is still
to come. With a bound on the steps of a run this gives that the future of each
commit becomes ready: when nothing can go on, every task has run and all workers
sleep.
-/

namespace Londa.Threadpool

variable {κ τ : Type*}

def WorkerPc.inside : WorkerPc τ → Bool
  | .pred => true
  | .waiting => true
  | .check => true
  | .popped _ _ => true
  | .returning => true
  | .fault => true
  | _ => false

def CommitterPc.inside : CommitterPc τ → Bool
  | .holding _ => true
  | _ => false

def CommitterPc.pending : CommitterPc τ → Bool
  | .notifying => true
  | _ => false

/-- The worker has been created and neither sleeps nor has ended. -/
def WorkerPc.active : WorkerPc τ → Bool
  | .unborn => false
  | .blocked => false
  | .exited => false
  | _ => true

/-- The threads between the acquisition and the release of `m_lock`. -/
def State.inside (s : State κ τ) : Thread κ → Bool
  | .worker i => (s.worker i).inside
  | .committer k => (s.committer k).inside

section Guard

variable {s t : State κ τ} {a : Act κ τ}

theorem inside_worker_ne {i : ℕ} {p : WorkerPc τ} (hw : t.worker = Function.update s.worker i p)
    (hc : t.committer = s.committer) (th : Thread κ) (hne : th ≠ .worker i) :
    t.inside th = s.inside th := by
  cases th with
  | worker j =>
      have hj : j ≠ i := fun he => hne (by rw [he])
      simp only [State.inside, hw, Function.update_of_ne hj]
  | committer k => simp only [State.inside, hc]

theorem inside_committer_ne [DecidableEq κ] {k : κ} {p : CommitterPc τ}
    (hw : t.worker = s.worker) (hc : t.committer = Function.update s.committer k p)
    (th : Thread κ) (hne : th ≠ .committer k) : t.inside th = s.inside th := by
  cases th with
  | worker j => simp only [State.inside, hw]
  | committer l =>
      have hl : l ≠ k := fun he => hne (by rw [he])
      simp only [State.inside, hc, Function.update_of_ne hl]

theorem inside_congr (hw : ∀ i, (t.worker i).inside = (s.worker i).inside)
    (hc : ∀ k, (t.committer k).inside = (s.committer k).inside) (th : Thread κ) :
    t.inside th = s.inside th := by
  cases th with
  | worker i => exact hw i
  | committer k => exact hc k

theorem guarded_step [DecidableEq κ] (ht : Trans s a t) (hun : s.worker s.created = .unborn)
    (h : Guarded s.inside s.mLock) : Guarded t.inside t.mLock := by
  cases ht with
  | lock i hpc hfree | relock i hpc hfree =>
      rw [hfree] at h
      apply h.acquire (i := .worker i)
      · simp [State.inside, WorkerPc.inside]
      · exact inside_worker_ne rfl rfl
  | block i hpc | unlock i k x hpc | exit i hpc =>
      apply h.release (i := .worker i) (by simp [State.inside, WorkerPc.inside, hpc])
      · simp [State.inside, WorkerPc.inside]
      · exact inside_worker_ne rfl rfl
  | stop i hpc | loop i hpc | go i hpc | wait i hpc | leave i hpc | fault i hpc
  | pop i x rest hpc | decrease i k x hpc | call i k x hpc | increase i hpc | spurious i hpc =>
      exact h.congr (inside_congr (update_frame WorkerPc.inside (by rw [hpc]; rfl)) (fun _ => rfl))
  | emplace size hc =>
      exact h.congr (inside_congr (update_frame WorkerPc.inside (by rw [hun]; rfl)) (fun _ => rfl))
  | lockCommitter k x hpc hfree =>
      rw [hfree] at h
      apply h.acquire (i := .committer k)
      · simp [State.inside, CommitterPc.inside]
      · exact inside_committer_ne rfl rfl
  | push k x hpc =>
      apply h.release (i := .committer k) (by simp [State.inside, CommitterPc.inside, hpc])
      · simp [State.inside, CommitterPc.inside]
      · exact inside_committer_ne rfl rfl
  | commit k x hc hd hpc =>
      exact h.congr
        (inside_congr (fun _ => rfl) (update_frame CommitterPc.inside (by rw [hpc]; rfl)))
  | notifyOne k w pc hpc hw =>
      exact h.congr (inside_congr
        (cvTask.notifyOne_frame WorkerPc.inside (cvTask_wake_frame _ rfl) hw)
        (update_frame CommitterPc.inside (by rw [hpc]; rfl)))
  | notifyAll hd =>
      exact h.congr (inside_congr
        (cvTask.notifyAll_frame WorkerPc.inside (cvTask_wake_frame _ rfl) s.worker)
        (fun _ => rfl))
  | more | constructed | reject | destroy | store | join | joined => exact h

end Guard

/-- What the lock keeps: a worker that is about to call `front()` finds a task or the flag
set, one that is about to sleep has seen an empty queue, and a queued task finds a worker
awake or a notification to come. -/
structure Sound (s : State κ τ) : Prop where
  guarded : Guarded s.inside s.mLock
  check : ∀ i, s.worker i = .check → s.stoped = true ∨ s.queue.tasks ≠ []
  waiting : ∀ i, s.worker i = .waiting → s.queue.tasks = []
  sane : ∀ i, s.worker i ≠ .fault
  pending : s.stoped = false → s.queue.tasks ≠ [] →
    (∃ i, (s.worker i).active = true) ∨ ∃ k, (s.committer k).pending = true

namespace Sound

theorem initial (size : ℕ) : Sound (initial size κ τ) := by
  constructor <;> simp [Threadpool.initial, WorkQueue.empty, Guarded, State.inside,
    WorkerPc.inside, CommitterPc.inside]
  intro th
  cases th <;> rfl

variable [DecidableEq κ] {s t : State κ τ} {a : Act κ τ}

theorem step_check (ht : Trans s a t) (h : Sound s) :
    ∀ j, t.worker j = .check → t.stoped = true ∨ t.queue.tasks ≠ [] := by
  intro j hj
  rcases trans_worker ht j with he | rfl | ⟨_, he⟩ | ⟨_, _, he⟩
  · have hjs : s.worker j = .check := he.symm.trans hj
    rcases h.check j hjs with hd | hq
    · exact .inl (trans_stoped ht hd)
    · cases ht with
      | pop i x rest hpc hq' =>
          have hij : Thread.worker i = Thread.worker (κ := κ) j :=
            h.guarded.unique (by simp [State.inside, hpc, WorkerPc.inside])
              (by simp [State.inside, hjs, WorkerPc.inside])
          cases hij
          simp at hj
      | push k x hpc => exact .inr (by simp)
      | _ => exact .inr hq
  · cases ht with
    | go _ hpc hp => exact hp
    | _ => simp at hj
  · rw [he] at hj
    cases hj
  · rw [he] at hj
    cases hj

theorem step_waiting (ht : Trans s a t) (h : Sound s) :
    ∀ j, t.worker j = .waiting → t.queue.tasks = [] := by
  intro j hj
  rcases trans_worker ht j with he | rfl | ⟨_, he⟩ | ⟨_, _, he⟩
  · have hjs : s.worker j = .waiting := he.symm.trans hj
    have hq := h.waiting j hjs
    cases ht with
    | pop i x rest hpc hq' =>
        rw [hq] at hq'
        cases hq'
    | push k x hpc =>
        have hkj : Thread.committer k = Thread.worker j :=
          h.guarded.unique (by simp [State.inside, hpc, CommitterPc.inside])
            (by simp [State.inside, hjs, WorkerPc.inside])
        cases hkj
    | _ => exact hq
  · cases ht with
    | wait _ hpc hd hq => exact hq
    | _ => simp at hj
  · rw [he] at hj
    cases hj
  · rw [he] at hj
    cases hj

theorem step_sane (ht : Trans s a t) (h : Sound s) : ∀ j, t.worker j ≠ .fault := by
  intro j hj
  rcases trans_worker ht j with he | rfl | ⟨_, he⟩ | ⟨_, _, he⟩
  · exact h.sane j (he.symm.trans hj)
  · cases ht with
    | fault _ hpc hq hd =>
        rcases h.check j hpc with hd' | hq'
        · rw [hd] at hd'
          cases hd'
        · exact hq' hq
    | _ => simp at hj
  · rw [he] at hj
    cases hj
  · rw [he] at hj
    cases hj

theorem active_of_awake {p : WorkerPc τ} (hb : p ≠ .blocked) (hun : p ≠ .unborn)
    (hexit : p ≠ .exited) : p.active = true := by
  cases p with
  | unborn => exact absurd rfl hun
  | blocked => exact absurd rfl hb
  | exited => exact absurd rfl hexit
  | _ => rfl

theorem step_pending {n : ℕ} (hn : 0 < n) (ht : Trans s a t) (hlife : Life s)
    (hcounted : Counted n s) (hborn : ∀ i < s.created, s.worker i ≠ .unborn) (h : Sound s)
    (hd : t.stoped = false) (hq : t.queue.tasks ≠ []) :
    (∃ i, (t.worker i).active = true) ∨ ∃ k, (t.committer k).pending = true := by
  cases ht with
  | stop i hpc hs | leave i hpc _ hs =>
      change s.stoped = false at hd
      rw [hs] at hd
      cases hd
  | exit i hpc =>
      have hs := hlife.left i (by rw [hpc]; rfl)
      change s.stoped = false at hd
      rw [hs] at hd
      cases hd
  | fault i hpc hempty => exact absurd hempty hq
  | pop i x rest hpc | spurious i hpc => exact .inl ⟨i, by simp [WorkerPc.active]⟩
  | block i hpc => exact absurd (h.waiting i hpc) hq
  | loop i hpc | lock i hpc | go i hpc | wait i hpc | relock i hpc | unlock i k x hpc
  | decrease i k x hpc | call i k x hpc | increase i hpc =>
      rcases h.pending hd hq with ⟨j, hj⟩ | hk
      · exact .inl ⟨j, (update_frame WorkerPc.active (by rw [hpc]; rfl) j).trans hj⟩
      · exact .inr hk
  | emplace size hc =>
      have hempty := (hcounted.unused (by simp [hc])).1
      exact absurd hempty hq
  | push k x hpc => exact .inr ⟨k, by simp [CommitterPc.pending]⟩
  | commit k x hc hs hpc | lockCommitter k x hpc =>
      rcases h.pending hd hq with hi | ⟨l, hl⟩
      · exact .inl hi
      · exact .inr ⟨l, (update_frame CommitterPc.pending (by rw [hpc]; rfl) l).trans hl⟩
  | notifyOne k w pc hpc hw =>
      have hdone : s.ctor = .done := by
        by_contra hc
        rw [(hcounted.unused hc).2 k] at hpc
        cases hpc
      have hat := hcounted.ctor
      rw [hdone] at hat
      have hts : (Finset.range s.created).Nonempty := ⟨0, Finset.mem_range.2 (hat ▸ hn)⟩
      obtain ⟨i, hi, hb⟩ := cvTask.notifyOne_awake hts hw
      have hleft := cvTask.notifyOne_frame WorkerPc.left (cvTask_wake_frame _ rfl) hw i
      refine .inl ⟨i, active_of_awake ?_ ?_ ?_⟩
      · intro hpc
        change pc i = .blocked at hpc
        rw [hpc] at hb
        cases hb
      · exact trans_born (.notifyOne k w pc hpc hw) (hborn i (Finset.mem_range.1 hi))
      · intro hpc
        change pc i = .exited at hpc
        have hs := hlife.left i (by rw [← hleft, hpc]; rfl)
        change s.stoped = false at hd
        rw [hs] at hd
        cases hd
  | notifyAll hs =>
      have hstoped := hlife.stoped.2 (by simp [hs])
      change s.stoped = false at hd
      rw [hstoped] at hd
      cases hd
  | store hs => cases hd
  | more | constructed | reject | destroy | join | joined => exact h.pending hd hq

end Sound

section Reachable

variable [DecidableEq κ] [Fintype κ] {s : State κ τ} {size : ℕ}

theorem reachable_sound (hsize : size < 65536) (h : (pool size κ τ).Reachable s) : Sound s := by
  refine h.invariant (Sound.initial size) (fun hr hi hst => ?_)
  have ht := step_trans hst
  have hlife := reachable_life hr
  have hcounted := reachable_counted hsize hr
  exact ⟨guarded_step ht (hlife.unborn _ le_rfl) hi.guarded, hi.step_check ht, hi.step_waiting ht,
    hi.step_sane ht,
    hi.step_pending (by omega) ht hlife hcounted (fun i => (reachable_born hr i).2)⟩

end Reachable

section Rank

/-- A bound on the steps a worker takes before it sleeps or ends. -/
def weight : WorkerPc τ → ℕ
  | .popped _ _ => 9
  | .taken _ _ => 8
  | .running _ _ => 7
  | .ran => 6
  | .test => 5
  | .locking => 4
  | .relocking => 4
  | .pred => 3
  | .check => 2
  | .waiting => 1
  | .returning => 1
  | _ => 0

def committerWeight : CommitterPc τ → ℕ
  | .locking _ => 15
  | .holding _ => 14
  | .notifying => 5
  | .idle => 0

/-- A worker that is still to be created counts with its creation. -/
def constructorWeight (n : ℕ) : ConstructorPc → ℕ
  | .test size => 7 * (n - size) + 1
  | .emplace size => 7 * (n - size)
  | .done => 0

def destructorWeight (n : ℕ) : DestructorPc → ℕ
  | .alive => 5 * n + 4
  | .storing => 5 * n + 3
  | .notifying => 5 * n + 2
  | .joining next => n - next + 1
  | .joined => 0

def Act.isCommit : Act κ τ → Bool
  | .commit _ _ => true
  | _ => false

def Act.isSpurious : Act κ τ → Bool
  | .spurious _ => true
  | _ => false

/-- The actions the pool does not take by itself. -/
def Act.isInput : Act κ τ → Bool
  | .commit _ _ => true
  | .spurious _ => true
  | .destroy => true
  | _ => false

/-- The task of a call of `commit`. -/
def Act.committed : Act κ τ → Option τ
  | .commit _ task => some task
  | _ => none

def Act.gain : Act κ τ → ℕ
  | .commit _ _ => 16
  | .spurious _ => 5
  | _ => 0

theorem sum_gain (as : List (Act κ τ)) :
    (as.map Act.gain).sum = 16 * as.countP Act.isCommit + 5 * as.countP Act.isSpurious := by
  induction as with
  | nil => rfl
  | cons a as ih =>
      rw [List.map_cons, List.sum_cons, ih, List.countP_cons, List.countP_cons]
      cases a <;> simp [Act.gain, Act.isCommit, Act.isSpurious] <;> omega

variable [Fintype κ] {s t : State κ τ} {a : Act κ τ} {n : ℕ}

/-- The steps that are left in a pool of `n` workers without further commits and
spurious wakeups. -/
def rank (n : ℕ) (s : State κ τ) : ℕ :=
  ∑ i ∈ Finset.range n, weight (s.worker i) + 8 * s.queue.tasks.length +
    ∑ k, committerWeight (s.committer k) + constructorWeight n s.ctor +
    destructorWeight n s.destructor

theorem rank_worker {i g : ℕ} {p : WorkerPc τ} (hi : i < n)
    (hw : t.worker = Function.update s.worker i p) (hk : t.committer = s.committer)
    (hd : t.destructor = s.destructor)
    (hlt : weight p + 8 * t.queue.tasks.length + constructorWeight n t.ctor <
      weight (s.worker i) + 8 * s.queue.tasks.length + constructorWeight n s.ctor + g) :
    rank n t < rank n s + g := by
  have hsum : ∑ j ∈ Finset.range n, weight (Function.update s.worker i p j) +
      weight (s.worker i) = ∑ j ∈ Finset.range n, weight (s.worker j) + weight p :=
    sum_update_add weight (Finset.mem_range.2 hi)
  unfold rank
  rw [hw, hk, hd]
  omega

variable [DecidableEq κ]

theorem rank_committer {g : ℕ} {k : κ} {p : CommitterPc τ} (hc : t.ctor = s.ctor)
    (hk : t.committer = Function.update s.committer k p) (hd : t.destructor = s.destructor)
    (hlt : ∑ i ∈ Finset.range n, weight (t.worker i) + 8 * t.queue.tasks.length +
        committerWeight p < ∑ i ∈ Finset.range n, weight (s.worker i) +
          8 * s.queue.tasks.length + committerWeight (s.committer k) + g) :
    rank n t < rank n s + g := by
  have hsum : ∑ l, committerWeight (Function.update s.committer k p l) +
      committerWeight (s.committer k) = ∑ l, committerWeight (s.committer l) + committerWeight p :=
    sum_update_add committerWeight (Finset.mem_univ k)
  unfold rank
  rw [hc, hk, hd]
  omega

theorem weight_wake (p : WorkerPc τ) (hb : cvTask.blocked p) :
    weight (cvTask.wake p) = weight p + 4 := by
  cases p with
  | blocked => rfl
  | _ => cases hb

theorem rank_lt (ht : Trans s a t) (hlife : Life s) (hcounted : Counted n s) (hn : n < 65536) :
    rank n t < rank n s + a.gain := by
  have hlt : ∀ {i}, s.worker i ≠ .unborn → i < n :=
    fun hi => (hlife.lt_created hi).trans_le hcounted.ctor.created_le
  cases ht with
  | stop i hpc | loop i hpc | lock i hpc | go i hpc | wait i hpc | block i hpc | relock i hpc
  | leave i hpc | fault i hpc | unlock i k x hpc | decrease i k x hpc | call i k x hpc
  | increase i hpc | exit i hpc =>
      refine rank_worker (hlt (by simp [hpc])) rfl rfl rfl ?_
      simp [hpc, weight, Act.gain]
  | spurious i hpc =>
      refine rank_worker (hlt (by simp [hpc])) rfl rfl rfl ?_
      simp [hpc, weight, Act.gain]
      omega
  | pop i x rest hpc hq =>
      refine rank_worker (hlt (by simp [hpc])) rfl rfl rfl ?_
      simp [hpc, hq, weight, Act.gain]
      omega
  | emplace size hc =>
      have hat := hcounted.ctor
      rw [hc] at hat
      obtain ⟨hcreated, hsize⟩ := hat
      refine rank_worker (hcreated ▸ hsize) rfl rfl rfl ?_
      have hwrap : (size + 1) % 65536 = size + 1 := Nat.mod_eq_of_lt (by omega)
      simp [hc, hwrap, hlife.unborn s.created le_rfl, constructorWeight, weight, Act.gain]
      omega
  | more size hc hmore | constructed size hc hge =>
      simp only [rank, hc, constructorWeight, Act.gain]
      omega
  | reject k x => simp [rank, Act.gain]
  | commit k x hc hd hpc =>
      refine rank_committer rfl rfl rfl ?_
      simp [hpc, committerWeight, Act.gain]
  | lockCommitter k x hpc =>
      refine rank_committer rfl rfl rfl ?_
      simp [hpc, committerWeight, Act.gain]
  | push k x hpc =>
      refine rank_committer rfl rfl rfl ?_
      simp [hpc, committerWeight, Act.gain]
      omega
  | notifyOne k w pc hpc hw =>
      have hsum := cvTask.sum_notifyOne_le (fun p hb => (weight_wake p hb).le)
        (Finset.range_subset_range.2 hcounted.ctor.created_le) hw
      refine rank_committer rfl rfl rfl ?_
      simp only [hpc, committerWeight, Act.gain, State.setCommitter]
      omega
  | notifyAll hd =>
      have hsum := cvTask.sum_notifyAll_le (Finset.range n) s.worker
        (fun p hb => (weight_wake p hb).le)
      rw [Finset.card_range] at hsum
      simp only [rank, hd, destructorWeight, Act.gain]
      omega
  | destroy hc hd | store hd =>
      simp only [rank, hd, destructorWeight, Act.gain]
      omega
  | join j hd hj =>
      have hle := hcounted.ctor.created_le
      simp only [rank, hd, destructorWeight, Act.gain]
      omega
  | joined j hd =>
      simp only [rank, hd, destructorWeight, Act.gain]
      omega

omit [DecidableEq κ] in
theorem rank_init (size : ℕ) : rank n (initial size κ τ) = 12 * n + 5 := by
  simp [rank, initial, weight, committerWeight, constructorWeight, destructorWeight,
    WorkQueue.empty]
  omega

end Rank

section Submitted

variable [DecidableEq κ] [Fintype κ] {s t : State κ τ} {a : Act κ τ} {size : ℕ} {f : τ → Bool}

/-- A call of `commit` that has not pushed its task yet. -/
def CommitterPc.submits (f : τ → Bool) : CommitterPc τ → Bool
  | .locking task => f task
  | .holding task => f task
  | _ => false

/-- The tasks counted by `f` among those pushed and those about to be. -/
def State.handedOver (f : τ → Bool) (s : State κ τ) : ℕ :=
  s.queue.submitted.countP f + (places (CommitterPc.submits f) Finset.univ s.committer).card

theorem handedOver_update {k : κ} {p : CommitterPc τ} {m : ℕ}
    (hk : t.committer = Function.update s.committer k p)
    (hcount : t.queue.submitted.countP f + (if p.submits f then 1 else 0) =
      s.queue.submitted.countP f + (if (s.committer k).submits f then 1 else 0) + m) :
    t.handedOver f = s.handedOver f + m := by
  have hcard : (places (CommitterPc.submits f) Finset.univ
        (Function.update s.committer k p)).card + (if (s.committer k).submits f then 1 else 0) =
      (places (CommitterPc.submits f) Finset.univ s.committer).card +
        if p.submits f then 1 else 0 :=
    card_places_update (Finset.mem_univ k)
  unfold State.handedOver
  rw [hk]
  omega

theorem handedOver_step (ht : Trans s a t) (hlife : Life s) :
    t.handedOver f = s.handedOver f + a.committed.toList.countP f := by
  cases ht with
  | commit k x hc hd hpc | lockCommitter k x hpc | push k x hpc =>
      refine handedOver_update rfl ?_
      cases hx : f x <;> simp [hpc, hx, Act.committed, CommitterPc.submits]
  | notifyOne k w pc hpc =>
      refine handedOver_update rfl ?_
      simp [hpc, Act.committed, CommitterPc.submits]
  | reject k x hc hd hpc hs => exact absurd hd (hlife.stoped.1 hs).1
  | _ => rfl

theorem handedOver_runFrom {as : List (Act κ τ)} (hr : (pool size κ τ).Reachable s)
    (h : (pool size κ τ).runFrom s as = some t) :
    t.handedOver f = s.handedOver f + (as.filterMap Act.committed).countP f := by
  induction as generalizing s with
  | nil =>
      obtain rfl := Option.some.inj h
      rfl
  | cons a as ih =>
      obtain ⟨u, hu, hrest⟩ := Machine.runFrom_cons_eq_some _ |>.1 h
      rw [ih (hr.step hu) hrest, handedOver_step (step_trans hu) (reachable_life hr)]
      have hsplit : (a :: as).filterMap Act.committed =
          a.committed.toList ++ as.filterMap Act.committed := by
        cases ha : a.committed <;> simp [ha]
      rw [hsplit, List.countP_append]
      omega

/-- When no call of `commit` is under way, the tasks pushed are those committed. -/
theorem submitted_perm {as : List (Act κ τ)} (h : (pool size κ τ).run as = some s)
    (hidle : ∀ k, s.committer k = .idle) :
    (as.filterMap Act.committed).Perm s.queue.submitted := by
  classical
  rw [List.perm_iff_count]
  intro x
  have hcount := handedOver_runFrom (f := (· == x)) .init h
  have hnone : places (CommitterPc.submits (· == x)) Finset.univ s.committer = ∅ :=
    Finset.filter_eq_empty_iff.2 (fun k _ => by simp [hidle, CommitterPc.submits])
  have hinit : (pool size κ τ).init.handedOver (· == x) = 0 := by
    simp [State.handedOver, pool, initial, WorkQueue.empty, places, CommitterPc.submits]
  rw [hinit, State.handedOver, hnone] at hcount
  simpa [List.count] using hcount.symm

end Submitted

section Served

variable {s : State κ τ} {size : ℕ}

/-- A worker that exists and cannot step sleeps, has ended or waits for `m_lock`. -/
theorem workerStep_stuck {i : ℕ} (h : workerStep s i = none) (hun : s.worker i ≠ .unborn)
    (hsane : s.worker i ≠ .fault) :
    s.worker i = .blocked ∨ s.worker i = .exited ∨
      s.mLock ≠ none ∧ (s.worker i).inside = false := by
  unfold workerStep at h
  split at h
  case h_1 hpc => exact absurd hpc hun
  case h_2 => split_ifs at h
  case h_3 hpc =>
    split_ifs at h with hfree
    exact .inr (.inr ⟨hfree, by rw [hpc]; rfl⟩)
  case h_4 => split_ifs at h
  case h_6 hpc => exact .inl hpc
  case h_7 hpc =>
    split_ifs at h with hfree
    exact .inr (.inr ⟨hfree, by rw [hpc]; rfl⟩)
  case h_8 => split at h <;> [split_ifs at h; cases h]
  case h_14 hpc => exact .inr (.inl hpc)
  case h_15 hpc => exact absurd hpc hsane
  all_goals cases h

variable [DecidableEq κ] [Fintype κ]

/-- The pool can go on by itself no more. -/
def Resting (size : ℕ) (s : State κ τ) : Prop :=
  ∀ a : Act κ τ, a.isInput = false → (pool size κ τ).step s a = none

theorem committer_stuck (h : Resting size s) (k : κ) :
    s.committer k = .idle ∨ s.mLock ≠ none ∧ (s.committer k).inside = false := by
  cases hk : s.committer k with
  | idle => exact .inl rfl
  | locking x =>
      have hlock := h (.lockCommitter k) rfl
      simp [pool, step, committerStep, hk] at hlock
      exact .inr ⟨hlock, rfl⟩
  | holding x =>
      have hpush := h (.push k) rfl
      simp [pool, step, committerStep, hk] at hpush
  | notifying =>
      obtain ⟨w, pc, hw⟩ := cvTask.exists_notifyOne (Finset.range s.created) s.worker
      have hnotify := h (.notifyOne k w) rfl
      simp [pool, step, committerStep, hk, hw] at hnotify

/-- While the destructor has not been entered, a pool that rests has no call of `commit`
under way and no task queued, and its workers sleep. -/
theorem rest (hsize : size < 65536) (hr : (pool size κ τ).Reachable s)
    (halive : s.destructor = .alive) (h : Resting size s) :
    s.ctor = .done ∧ (∀ k, s.committer k = .idle) ∧ (∀ i < s.created, s.worker i = .blocked) ∧
      s.queue.tasks = [] := by
  have hsound := reachable_sound hsize hr
  have hlife := reachable_life hr
  have hopen : s.stoped = false := by
    by_contra hs
    exact (hlife.stoped.1 (by simpa using hs)).1 halive
  have hctor : s.ctor = .done := by
    by_contra hc
    obtain ⟨t, ht⟩ := constructorStep_isSome hc
    have hnone := h .construct rfl
    simp [pool, step, ht] at hnone
  have hworker : ∀ i < s.created, s.worker i = .blocked ∨
      s.mLock ≠ none ∧ (s.worker i).inside = false := by
    intro i hi
    rcases workerStep_stuck (h (.worker i) rfl) ((reachable_born hr i).2 hi) (hsound.sane i)
      with hb | hexit | hwait
    · exact .inl hb
    · have hs := hlife.left i (by rw [hexit]; rfl)
      rw [hopen] at hs
      cases hs
    · exact .inr hwait
  have hfree : s.mLock = none := by
    apply hsound.guarded.owner_none
    intro th
    cases th with
    | worker i =>
        by_cases hi : i < s.created
        · rcases hworker i hi with hb | ⟨-, hout⟩
          · simp [State.inside, hb, WorkerPc.inside]
          · exact hout
        · simp [State.inside, hlife.unborn i (not_lt.1 hi), WorkerPc.inside]
    | committer k =>
        rcases committer_stuck h k with hk | ⟨-, hout⟩
        · simp [State.inside, hk, CommitterPc.inside]
        · exact hout
  have hidle : ∀ k, s.committer k = .idle :=
    fun k => (committer_stuck h k).resolve_right (fun hwait => hwait.1 hfree)
  have hblocked : ∀ i < s.created, s.worker i = .blocked :=
    fun i hi => (hworker i hi).resolve_right (fun hwait => hwait.1 hfree)
  refine ⟨hctor, hidle, hblocked, ?_⟩
  by_contra hq
  rcases hsound.pending hopen hq with ⟨i, hi⟩ | ⟨k, hk⟩
  · by_cases hlt : i < s.created
    · rw [hblocked i hlt] at hi
      cases hi
    · rw [hlife.unborn i (not_lt.1 hlt)] at hi
      cases hi
  · rw [hidle k] at hk
    cases hk

/-- No worker ever takes a task from an empty queue. The pool rests after a number of steps
bounded by its size, the commits and the spurious wakeups; if it has not been destroyed
then, exactly the committed tasks have run, and all its workers sleep and count as idle. -/
theorem commits_served (hsize : size < 65536) {as : List (Act κ τ)}
    (h : (pool size κ τ).run as = some s) :
    (∀ i, s.worker i ≠ .fault) ∧
      as.length ≤ 12 * max 1 size + 5 + 16 * as.countP Act.isCommit +
        5 * as.countP Act.isSpurious ∧
      (s.destructor = .alive → Resting size s →
        (s.queue.ran.map Call.task).Perm (as.filterMap Act.committed) ∧
          (∀ i < max 1 size, s.worker i = .blocked) ∧ s.idlCount = (max 1 size : ℕ)) := by
  have hr := Machine.reachable_of_run as h
  have hlength := Machine.Reachable.length_add_le_gain (rank (max 1 size)) Act.gain
    (Machine.ReachableBy.init : (pool size κ τ).Reachable (pool size κ τ).init)
    (fun hr hst => rank_lt (step_trans hst) (reachable_life hr) (reachable_counted hsize hr)
      (by omega)) h
  rw [show rank (max 1 size) (pool size κ τ).init = _ from rank_init size, sum_gain] at hlength
  refine ⟨(reachable_sound hsize hr).sane, by omega, fun halive hrest => ?_⟩
  obtain ⟨hctor, hidle, hblocked, hempty⟩ := rest hsize hr halive hrest
  have hcounted := reachable_counted hsize hr
  have hat := hcounted.ctor
  rw [hctor] at hat
  have hhand : ∀ i, (s.worker i).current = none := by
    intro i
    by_cases hi : i < s.created
    · rw [hblocked i hi]
      rfl
    · rw [(reachable_life hr).unborn i (not_lt.1 hi)]
      rfl
  have hcharged : s.charged = ∅ := by
    refine Finset.filter_eq_empty_iff.2 (fun i hi => ?_)
    rw [hblocked i (Finset.mem_range.1 hi)]
    nofun
  refine ⟨?_, fun i hi => hblocked i (hat ▸ hi), ?_⟩
  · exact ((reachable_ledger hr).ran_perm hempty hhand).trans (submitted_perm h hidle).symm
  · have hidl := hcounted.idlCount_eq
    rw [hcharged, Finset.card_empty] at hidl
    omega

/-- One worker falls asleep, is woken for a task, runs it and falls asleep again. -/
def wokenWorker : List (Act (Fin 1) ℕ) :=
  List.replicate 3 .construct ++ List.replicate 4 (.worker 0) ++
    [.commit 0 7, .lockCommitter 0, .push 0, .notifyOne 0 (some 0)] ++
    List.replicate 11 (.worker 0)

theorem commits_served_wokenWorker : ∃ s, (pool 1 (Fin 1) ℕ).run wokenWorker = some s ∧
    s.destructor = .alive ∧ Resting 1 s ∧ (s.queue.ran.map Call.task).Perm [7] := by
  have hrun : ((pool 1 (Fin 1) ℕ).run wokenWorker).map (fun s =>
      ((s.ctor, s.worker 0, s.committer 0), s.destructor, s.created)) =
        some ((.done, .blocked, .idle), .alive, 1) := by decide +kernel
  obtain ⟨s, hs, hr, hv⟩ := Machine.reachable_of_run_map hrun
  simp only [Prod.mk.injEq] at hv
  obtain ⟨⟨hctor, hw, hk⟩, hd, hcreated⟩ := hv
  have hrest : Resting 1 s := by
    intro a ha
    cases a with
    | construct => simp [pool, step, constructorStep, hctor]
    | worker i =>
        by_cases hi : i = 0
        · simp [pool, step, workerStep, hi, hw]
        · simp [pool, step, workerStep, (reachable_life hr).unborn i (by omega)]
    | lockCommitter k | push k | notifyOne k w =>
        simp [pool, step, committerStep, Fin.fin_one_eq_zero k, hk]
    | store | notifyAll | join => simp [pool, step, destructorStep, hd]
    | commit | spurious | destroy => cases ha
  exact ⟨s, hs, hd, hrest, ((commits_served (by decide) hs).2.2 hd hrest).1⟩

end Served

end Londa.Threadpool
