import Londa.Counting
import Londa.ThreadpoolDrain

/-!
# The worker count and the idle counter of the thread pool

The constructor's loop is bounded by `idlThrNum`, which its workers may change. They do
not before it ends: a task can be committed only to a constructed pool, so the queue is
empty and no worker gets past its wait. From then on a worker is missing from the counter
between its decrement and its increment.
-/

namespace Londa.Threadpool

variable {κ τ : Type*}

/-- The worker has popped a task and not yet given its place back. -/
def WorkerPc.tasked : WorkerPc τ → Bool
  | .popped _ _ => true
  | .taken _ _ => true
  | .running _ _ => true
  | .ran => true
  | _ => false

/-- The worker is between `idlThrNum--` and `idlThrNum++`. -/
def WorkerPc.charged : WorkerPc τ → Bool
  | .running _ _ => true
  | .ran => true
  | _ => false

theorem WorkerPc.tasked_of_charged {p : WorkerPc τ} (h : p.charged = true) : p.tasked = true := by
  cases p with
  | running k t | ran => rfl
  | _ => cases h

def State.idlCount (s : State κ τ) : ℤ := s.idlThrNum

def State.charged (s : State κ τ) : Finset ℕ :=
  places WorkerPc.charged (Finset.range s.created) s.worker

def Act.isConstruct : Act κ τ → Bool
  | .construct => true
  | _ => false

/-- The steps the constructor has made in a loop of `n` turns. -/
def ConstructorPc.steps (n : ℕ) : ConstructorPc → ℕ
  | .test size => 2 * size
  | .emplace size => 2 * size + 1
  | .done => 2 * n + 1

/-- The index of the constructor's loop is the number of workers, and it is bounded. -/
def ConstructorPc.At (n created : ℕ) : ConstructorPc → Prop
  | .test size => created = size ∧ size ≤ n
  | .emplace size => created = size ∧ size < n
  | .done => created = n

namespace ConstructorPc.At

variable {n created : ℕ} {pc : ConstructorPc}

theorem created_le (h : pc.At n created) : created ≤ n := by
  cases pc with
  | test size | emplace size =>
      obtain ⟨rfl, hle⟩ := h
      omega
  | done => exact le_of_eq h

theorem steps_le (h : pc.At n created) : pc.steps n ≤ 2 * n + 1 := by
  cases pc with
  | test size | emplace size =>
      obtain ⟨-, hle⟩ := h
      simp only [steps]
      omega
  | done => exact le_rfl

theorem done_iff (h : pc.At n created) : pc = .done ↔ pc.steps n = 2 * n + 1 := by
  cases pc with
  | test size | emplace size =>
      obtain ⟨-, hle⟩ := h
      refine iff_of_false nofun ?_
      simp only [steps]
      omega
  | done => exact iff_of_true rfl rfl

end ConstructorPc.At

structure Counted (n : ℕ) (s : State κ τ) : Prop where
  unused : s.ctor ≠ .done → s.queue.tasks = [] ∧ ∀ k, s.committer k = .idle
  untasked : s.ctor ≠ .done → ∀ i, (s.worker i).tasked = false
  ctor : s.ctor.At n s.created
  idle : s.idlThrNum + s.charged.card = n

namespace Counted

variable {s t : State κ τ} {a : Act κ τ} {n : ℕ}

theorem initial (size : ℕ) : Counted (max 1 size) (initial size κ τ) := by
  refine ⟨fun _ => ⟨rfl, fun _ => rfl⟩, fun _ _ => rfl, ⟨rfl, Nat.zero_le _⟩, ?_⟩
  have hnone : (Threadpool.initial size κ τ).charged = ∅ := rfl
  rw [hnone, Finset.card_empty]
  simp only [Threadpool.initial]
  split_ifs <;> omega

/-- While the constructor runs nobody is missing from the counter that bounds it. -/
theorem idlThrNum_eq (h : Counted n s) (hc : s.ctor ≠ .done) : s.idlThrNum = n := by
  have hidle := h.idle
  have hnone : s.charged = ∅ := by
    refine Finset.filter_eq_empty_iff.2 (fun i _ hi => ?_)
    have hun := h.untasked hc i
    rw [WorkerPc.tasked_of_charged hi] at hun
    cases hun
  rw [hnone, Finset.card_empty] at hidle
  omega

variable [DecidableEq κ]

theorem ctor_ne_done (ht : Trans s a t) (h : t.ctor ≠ .done) : s.ctor ≠ .done := by
  cases ht with
  | more size hc hlt | constructed size hc hge | emplace size hc => simp [hc]
  | _ => exact h

theorem step_unused (ht : Trans s a t) (h : Counted n s) :
    t.ctor ≠ .done → t.queue.tasks = [] ∧ ∀ k, t.committer k = .idle := by
  intro hc
  obtain ⟨hq, hk⟩ := h.unused (ctor_ne_done ht hc)
  cases ht with
  | pop i x rest hpc hq' =>
      rw [hq] at hq'
      cases hq'
  | lockCommitter k x hpc | push k x hpc | notifyOne k w pc hpc =>
      rw [hk k] at hpc
      cases hpc
  | commit k x hc' => exact absurd hc' hc
  | _ => exact ⟨hq, hk⟩

theorem step_untasked (ht : Trans s a t) (h : Counted n s) :
    t.ctor ≠ .done → ∀ i, (t.worker i).tasked = false := by
  intro hc i
  have hq := (h.unused (ctor_ne_done ht hc)).1
  have hun := h.untasked (ctor_ne_done ht hc) i
  rcases trans_worker ht i with he | rfl | ⟨_, he⟩ | ⟨_, _, he⟩
  · rw [he, hun]
  · cases ht with
    | pop _ x rest hpc hq' =>
        rw [hq] at hq'
        cases hq'
    | unlock _ k x hpc | decrease _ k x hpc | call _ k x hpc =>
        rw [hpc] at hun
        cases hun
    | _ => simp [WorkerPc.tasked]
  · rw [he]
    rfl
  · rw [he]
    rfl

theorem step_ctor (ht : Trans s a t) (h : Counted n s) (hn : n < 65536) :
    t.ctor.At n t.created := by
  have hat := h.ctor
  cases ht with
  | more size hc hlt =>
      rw [h.idlThrNum_eq (by simp [hc])] at hlt
      rw [hc] at hat
      exact ⟨hat.1, by omega⟩
  | constructed size hc hge =>
      rw [h.idlThrNum_eq (by simp [hc])] at hge
      rw [hc] at hat
      obtain ⟨hcreated, hle⟩ := hat
      change s.created = n
      omega
  | emplace size hc =>
      rw [hc] at hat
      obtain ⟨hcreated, hlt⟩ := hat
      -- the index does not wrap: it stays below the number of workers
      have hmod : (size + 1) % 65536 = size + 1 := Nat.mod_eq_of_lt (by omega)
      refine ⟨?_, ?_⟩
      · rw [hmod, hcreated]
      · rw [hmod]
        exact hlt
  | _ => exact hat

omit [DecidableEq κ] in
/-- A worker that moves changes the count by what it was and by what it is now. -/
theorem card_charged_update {i : ℕ} {p : WorkerPc τ} (hlife : Life s) (hi : s.worker i ≠ .unborn) :
    (places WorkerPc.charged (Finset.range s.created) (Function.update s.worker i p)).card +
      (if (s.worker i).charged then 1 else 0) =
    s.charged.card + if p.charged then 1 else 0 :=
  card_places_update (Finset.mem_range.2 (hlife.lt_created hi))

omit [DecidableEq κ] in
theorem idle_congr (h : Counted n s) (hidl : t.idlThrNum = s.idlThrNum)
    (hcreated : t.created = s.created) (hw : ∀ j, (t.worker j).charged = (s.worker j).charged) :
    t.idlThrNum + t.charged.card = n := by
  have hsame : t.charged = s.charged := by
    unfold State.charged
    rw [hcreated, places_congr hw]
  rw [hidl, hsame, h.idle]

theorem step_idle (ht : Trans s a t) (hlife : Life s) (h : Counted n s) :
    t.idlThrNum + t.charged.card = n := by
  have hidle := h.idle
  cases ht with
  | emplace size hc =>
      have hout : s.created ∉ Finset.range s.created := by simp
      have hcard : (places WorkerPc.charged (Finset.range (s.created + 1))
          (Function.update s.worker s.created .test)).card = s.charged.card := by
        rw [Finset.range_add_one, places_insert hout, places_update_of_notMem hout,
          Function.update_self]
        rfl
      rw [← hcard] at hidle
      exact hidle
  | decrease i k x hpc =>
      have hcard := card_charged_update (p := .running k x) hlife (by rw [hpc]; nofun)
      simp only [hpc, WorkerPc.charged, Bool.false_eq_true, if_false, if_true] at hcard
      change s.idlThrNum - 1 + (places WorkerPc.charged (Finset.range s.created)
        (Function.update s.worker i (.running k x))).card = n
      omega
  | increase i hpc =>
      have hcard := card_charged_update (p := .test) hlife (by rw [hpc]; nofun)
      simp only [hpc, WorkerPc.charged, Bool.false_eq_true, if_false, if_true] at hcard
      change s.idlThrNum + 1 + (places WorkerPc.charged (Finset.range s.created)
        (Function.update s.worker i .test)).card = n
      omega
  | notifyOne k w pc hpc hw =>
      exact h.idle_congr rfl rfl
        (cvTask.notifyOne_frame WorkerPc.charged (cvTask_wake_frame _ rfl) hw)
  | notifyAll hd =>
      exact h.idle_congr rfl rfl
        (cvTask.notifyAll_frame WorkerPc.charged (cvTask_wake_frame _ rfl) s.worker)
  | stop i hpc hd | loop i hpc hd | lock i hpc hfree | go i hpc hp | wait i hpc hd hq | block i hpc
  | relock i hpc hfree | leave i hpc hq hd | fault i hpc hq hd | pop i x rest hpc hq
  | unlock i k x hpc | call i k x hpc | exit i hpc | spurious i hpc =>
      exact h.idle_congr rfl rfl (update_frame WorkerPc.charged (by rw [hpc]; rfl))
  | _ => exact hidle

theorem step (ht : Trans s a t) (hlife : Life s) (h : Counted n s) (hn : n < 65536) :
    Counted n t :=
  ⟨h.step_unused ht, h.step_untasked ht, h.step_ctor ht hn, h.step_idle ht hlife⟩

/-- Every step of the constructor is one more, and nobody else takes any. -/
theorem step_steps (ht : Trans s a t) (h : Counted n s) (hn : n < 65536) :
    t.ctor.steps n = s.ctor.steps n + if a.isConstruct then 1 else 0 := by
  have hat := h.ctor
  cases ht with
  | more size hc hlt =>
      rw [hc]
      rfl
  | constructed size hc hge =>
      rw [h.idlThrNum_eq (by simp [hc])] at hge
      rw [hc] at hat ⊢
      have hsize : size = n := le_antisymm hat.2 (by omega)
      rw [hsize]
      rfl
  | emplace size hc =>
      rw [hc] at hat ⊢
      have hlt : size < n := hat.2
      have hmod : (size + 1) % 65536 = size + 1 := Nat.mod_eq_of_lt (by omega)
      rw [hmod]
      rfl
  | _ => rfl

omit [DecidableEq κ] in
theorem idlCount_eq (h : Counted n s) : s.idlCount = n - (s.charged.card : ℤ) :=
  eq_sub_of_add_eq h.idle

omit [DecidableEq κ] in
theorem charged_le (h : Counted n s) : s.charged.card ≤ n := by
  have hrange : s.charged.card ≤ (Finset.range s.created).card := Finset.card_filter_le _ _
  rw [Finset.card_range] at hrange
  exact hrange.trans h.ctor.created_le

end Counted

variable [DecidableEq κ] {s t : State κ τ} {a : Act κ τ} {size : ℕ}

theorem trans_born (ht : Trans s a t) {i : ℕ} (h : s.worker i ≠ .unborn) :
    t.worker i ≠ .unborn := by
  rcases trans_worker ht i with he | rfl | ⟨_, he⟩ | ⟨_, _, he⟩
  · rw [he]
    exact h
  · cases ht <;> simp
  · rw [he]
    nofun
  · rw [he]
    nofun

/-- The workers are numbered from 0 up to the number of those created. -/
theorem step_born (ht : Trans s a t) (h : ∀ i < s.created, s.worker i ≠ .unborn) :
    ∀ i < t.created, t.worker i ≠ .unborn := by
  intro i hi
  by_cases hold : i < s.created
  · exact trans_born ht (h i hold)
  · cases ht with
    | emplace size hc =>
        have hlast : i = s.created := by
          change i < s.created + 1 at hi
          omega
        simp [hlast]
    | _ => exact absurd hi hold

omit [DecidableEq κ] in
/-- The constructor waits for nobody. -/
theorem constructorStep_isSome (h : s.ctor ≠ .done) : ∃ t, constructorStep s = some t := by
  unfold constructorStep
  cases hc : s.ctor with
  | test size =>
      by_cases hlt : (size : ℤ) < s.idlThrNum
      · exact ⟨_, if_pos hlt⟩
      · exact ⟨_, if_neg hlt⟩
  | emplace size => exact ⟨_, rfl⟩
  | done => exact absurd hc h

variable [Fintype κ]

theorem counted_step (hsize : size < 65536) (hr : (pool size κ τ).Reachable s)
    (h : Counted (max 1 size) s) (hst : (pool size κ τ).step s a = some t) :
    Counted (max 1 size) t :=
  h.step (step_trans hst) (reachable_life hr) (by omega)

theorem reachable_counted (hsize : size < 65536) (h : (pool size κ τ).Reachable s) :
    Counted (max 1 size) s :=
  h.invariant (Counted.initial size) (fun hr hi hst => counted_step hsize hr hi hst)

/-- The constructor is where the number of its steps in the run says. -/
theorem steps_runFrom (hsize : size < 65536) {as : List (Act κ τ)}
    (hr : (pool size κ τ).Reachable s) (h : (pool size κ τ).runFrom s as = some t) :
    t.ctor.steps (max 1 size) = s.ctor.steps (max 1 size) + as.countP Act.isConstruct := by
  induction as generalizing s with
  | nil =>
      cases Option.some.inj h
      rfl
  | cons a as ih =>
      obtain ⟨u, hu, hrest⟩ := Machine.runFrom_cons_eq_some _ |>.1 h
      have hstep := (reachable_counted hsize hr).step_steps (step_trans hu) (by omega)
      rw [ih (hr.step hu) hrest, hstep, List.countP_cons]
      omega

theorem reachable_born (h : (pool size κ τ).Reachable s) (i : ℕ) :
    s.worker i ≠ .unborn ↔ i < s.created := by
  refine ⟨(reachable_life h).lt_created, ?_⟩
  apply h.invariant (I := fun s => ∀ i < s.created, s.worker i ≠ .unborn)
  · exact fun i hi => absurd hi (Nat.not_lt_zero i)
  · exact fun _ hi hst => step_born (step_trans hst) hi

/-- The constructor's loop takes `2 * N + 1` steps however the workers interleave, is never
held up, and leaves exactly `N = max 1 size` workers. The idle counter is `N` less the
workers between their decrement and their increment. -/
theorem workers_and_idlCount (κ τ : Type*) [DecidableEq κ] [Fintype κ] (size : ℕ)
    (hsize : size < 65536) :
    (∀ as s, (pool size κ τ).run as = some s →
      as.countP Act.isConstruct ≤ 2 * max 1 size + 1 ∧
        (s.ctor = .done ↔ as.countP Act.isConstruct = 2 * max 1 size + 1)) ∧
    ∀ s, (pool size κ τ).Reachable s →
      (s.ctor ≠ .done → ∃ t, (pool size κ τ).step s .construct = some t) ∧
      (s.ctor = .done → ∀ i, s.worker i ≠ .unborn ↔ i < max 1 size) ∧
      s.idlCount = (max 1 size : ℕ) - (s.charged.card : ℤ) ∧
      0 ≤ s.idlCount ∧ s.idlCount ≤ (max 1 size : ℕ) := by
  constructor
  · intro as s hrun
    have hsteps := steps_runFrom hsize .init hrun
    have hzero : (pool size κ τ).init.ctor.steps (max 1 size) = 0 := rfl
    have hat := (reachable_counted hsize (Machine.reachable_of_run as hrun)).ctor
    rw [hzero, Nat.zero_add] at hsteps
    rw [← hsteps]
    exact ⟨hat.steps_le, hat.done_iff⟩
  · intro s hr
    have hcounted := reachable_counted hsize hr
    have hidle := hcounted.idlCount_eq
    have hle := hcounted.charged_le
    refine ⟨constructorStep_isSome, fun hc i => ?_, hidle, by omega, by omega⟩
    have hat := hcounted.ctor
    rw [hc] at hat
    rw [reachable_born hr, hat]

/-- Two workers; the first one waits before the second is created, and later runs a task. -/
def busyWorker : List (Act (Fin 1) ℕ) :=
  [.construct, .construct, .worker 0, .worker 0, .construct, .worker 0, .worker 0, .construct,
    .construct, .commit 0 7, .lockCommitter 0, .push 0, .notifyOne 0 (some 0), .worker 0,
    .worker 0, .worker 0, .worker 0, .worker 0]

theorem workers_and_idlCount_busyWorker :
    ∃ s, (pool 2 (Fin 1) ℕ).run busyWorker = some s ∧ s.ctor = .done ∧
      (∀ i, s.worker i ≠ .unborn ↔ i < 2) ∧ s.idlCount = 1 ∧ s.charged.card = 1 := by
  have hrun : ((pool 2 (Fin 1) ℕ).run busyWorker).map (fun s => (s.ctor, s.idlCount)) =
      some (.done, 1) := by decide +kernel
  obtain ⟨s, hs, hr, hv⟩ := Machine.reachable_of_run_map hrun
  simp only [Prod.mk.injEq] at hv
  obtain ⟨hc, hidl⟩ := hv
  obtain ⟨-, hborn, hcount, -, -⟩ := (workers_and_idlCount (Fin 1) ℕ 2 (by decide)).2 s hr
  refine ⟨s, hs, hc, hborn hc, hidl, ?_⟩
  rw [hidl] at hcount
  omega

end Londa.Threadpool
