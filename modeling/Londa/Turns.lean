import Londa.Machine
import Londa.Monitor

/-!
# Threads that take turns under a monitor

Every thread runs the loop

  while (again) { lock; wait(ready); body; notify_all; unlock; }

over a shared value and a value of its own. The loop test is made without the lock, the
wait predicate and the body under it, and the wait is split into the evaluation of the
predicate and the atomic release-and-block. A thread runs its body only while its
predicate holds, so an invariant of the shared value needs to be kept by the bodies of
threads that are ready.
-/

namespace Londa

structure Turns (ι σ κ : Type*) where
  again : ι → σ → κ → Bool
  ready : ι → σ → Bool
  body : ι → σ → σ × κ

namespace Turns

variable {ι σ κ : Type*}

inductive Pc
  | loop
  | locking
  | testing
  | waiting
  | blocked
  | relocking
  | running
  | notifying
  | unlocking
  | returned
  deriving DecidableEq

structure State (ι σ κ : Type*) where
  shared : σ
  own : ι → κ
  pc : ι → Pc
  mutex : Option ι

inductive Act (ι : Type*)
  | thread (i : ι)
  | spurious (i : ι)

def cv : CondVar Pc where
  blocked
    | .blocked => true
    | _ => false
  wake _ := .relocking
  wake_not_blocked _ _ := rfl

def State.goto [DecidableEq ι] (s : State ι σ κ) (i : ι) (p : Pc) : State ι σ κ :=
  { s with pc := Function.update s.pc i p }

variable [DecidableEq ι] (T : Turns ι σ κ)

def threadStep (s : State ι σ κ) (i : ι) : Option (State ι σ κ) :=
  match s.pc i with
  | .loop => some (s.goto i (if T.again i s.shared (s.own i) then .locking else .returned))
  | .locking | .relocking =>
      if s.mutex = none then some { s.goto i .testing with mutex := some i } else none
  | .testing => some (s.goto i (if T.ready i s.shared then .running else .waiting))
  | .waiting => some { s.goto i .blocked with mutex := none }
  | .blocked => none
  | .running =>
      some { s.goto i .notifying with
        shared := (T.body i s.shared).1
        own := Function.update s.own i (T.body i s.shared).2 }
  | .notifying => some { s with pc := Function.update (cv.notifyAll s.pc) i .unlocking }
  | .unlocking => some { s.goto i .loop with mutex := none }
  | .returned => none

def step (s : State ι σ κ) : Act ι → Option (State ι σ κ)
  | .thread i => T.threadStep s i
  | .spurious i => if s.pc i = .blocked then some (s.goto i .relocking) else none

/-- All threads start at the head of their loops. -/
def start (shared : σ) (own : ι → κ) : State ι σ κ := ⟨shared, own, fun _ => .loop, none⟩

def machine (shared : σ) (own : ι → κ) : Machine (State ι σ κ) (Act ι) where
  init := start shared own
  step := T.step

/-- No thread can take a step. -/
def Stuck (s : State ι σ κ) : Prop := ∀ i, T.step s (.thread i) = none

/-- What a step can do. -/
inductive Trans (s : State ι σ κ) : Act ι → State ι σ κ → Prop
  | enter (i : ι) : s.pc i = .loop → T.again i s.shared (s.own i) = true →
      Trans s (.thread i) (s.goto i .locking)
  | leave (i : ι) : s.pc i = .loop → T.again i s.shared (s.own i) = false →
      Trans s (.thread i) (s.goto i .returned)
  | lock (i : ι) : s.pc i = .locking ∨ s.pc i = .relocking → s.mutex = none →
      Trans s (.thread i) { s.goto i .testing with mutex := some i }
  | goOn (i : ι) : s.pc i = .testing → T.ready i s.shared = true →
      Trans s (.thread i) (s.goto i .running)
  | wait (i : ι) : s.pc i = .testing → T.ready i s.shared = false →
      Trans s (.thread i) (s.goto i .waiting)
  | block (i : ι) : s.pc i = .waiting → Trans s (.thread i) { s.goto i .blocked with mutex := none }
  | run (i : ι) : s.pc i = .running →
      Trans s (.thread i) { s.goto i .notifying with
        shared := (T.body i s.shared).1
        own := Function.update s.own i (T.body i s.shared).2 }
  | notify (i : ι) : s.pc i = .notifying →
      Trans s (.thread i) { s with pc := Function.update (cv.notifyAll s.pc) i .unlocking }
  | unlock (i : ι) : s.pc i = .unlocking → Trans s (.thread i) { s.goto i .loop with mutex := none }
  | spurious (i : ι) : s.pc i = .blocked → Trans s (.spurious i) (s.goto i .relocking)

variable {T} {s t : State ι σ κ} {a : Act ι} {i : ι}

theorem threadStep_trans (h : T.threadStep s i = some t) : T.Trans s (.thread i) t := by
  unfold threadStep at h
  cases hpc : s.pc i with
  | loop =>
      simp only [hpc] at h
      cases h
      by_cases hagain : T.again i s.shared (s.own i) = true
      · rw [if_pos hagain]
        exact .enter i hpc hagain
      · rw [if_neg hagain]
        exact .leave i hpc (by simpa using hagain)
  | locking | relocking =>
      simp only [hpc] at h
      split at h
      · rename_i hfree
        cases h
        exact .lock i (by simp [hpc]) hfree
      · cases h
  | testing =>
      simp only [hpc] at h
      cases h
      by_cases hready : T.ready i s.shared = true
      · rw [if_pos hready]
        exact .goOn i hpc hready
      · rw [if_neg hready]
        exact .wait i hpc (by simpa using hready)
  | waiting =>
      simp only [hpc] at h
      cases h
      exact .block i hpc
  | running =>
      simp only [hpc] at h
      cases h
      exact .run i hpc
  | notifying =>
      simp only [hpc] at h
      cases h
      exact .notify i hpc
  | unlocking =>
      simp only [hpc] at h
      cases h
      exact .unlock i hpc
  | blocked | returned => simp [hpc] at h

theorem step_trans (h : T.step s a = some t) : T.Trans s a t := by
  cases a with
  | thread i => exact threadStep_trans h
  | spurious i =>
      simp only [step] at h
      split at h
      · rename_i hpc
        cases h
        exact .spurious i hpc
      · cases h

def Pc.inside : Pc → Bool
  | .testing => true
  | .waiting => true
  | .running => true
  | .notifying => true
  | .unlocking => true
  | _ => false

theorem blocked_iff {p : Pc} : cv.blocked p = true ↔ p = .blocked := by
  cases p <;> simp [cv]

omit [DecidableEq ι] in
/-- What does not tell a woken thread from a blocked one is not changed by `notify_all`. -/
theorem notifyAll_frame {β : Type*} (f : Pc → β) (hf : f .relocking = f .blocked) (pc : ι → Pc)
    (j : ι) : f (cv.notifyAll pc j) = f (pc j) := by
  apply cv.notifyAll_frame f
  intro p hp
  rw [blocked_iff.1 hp]
  exact hf

def Locked (s : State ι σ κ) : Prop := Guarded (fun j => (s.pc j).inside) s.mutex

theorem Locked.step (h : Locked s) (ht : T.Trans s a t) : Locked t := by
  unfold Locked at *
  cases ht with
  | lock i hpc hfree =>
      rw [hfree] at h
      exact h.acquire_update rfl
  | block i hpc | unlock i hpc => exact h.release_update (by rw [hpc]; rfl) rfl
  | enter i hpc | leave i hpc | goOn i hpc | wait i hpc | run i hpc | spurious i hpc =>
      exact h.congr (update_frame Pc.inside (by rw [hpc]; rfl))
  | notify i hpc =>
      apply h.congr
      intro j
      by_cases hji : j = i
      · subst j
        simp [hpc, Pc.inside]
      · simp only [Function.update_of_ne hji]
        exact notifyAll_frame Pc.inside rfl s.pc j

/-- A thread that runs its body is ready. -/
def ReadyRuns (T : Turns ι σ κ) (s : State ι σ κ) : Prop :=
  ∀ i, s.pc i = .running → T.ready i s.shared

theorem ReadyRuns.step (h : T.ReadyRuns s) (hl : Locked s) (ht : T.Trans s a t) :
    T.ReadyRuns t := by
  intro j hj
  cases ht with
  | goOn i hpc hready =>
      by_cases hji : j = i
      · exact hji ▸ hready
      · simp only [State.goto, Function.update_of_ne hji] at hj
        exact h j hj
  | run i hpc =>
      by_cases hji : j = i
      · subst j
        simp [State.goto] at hj
      · simp only [State.goto, Function.update_of_ne hji] at hj
        exact absurd (hl.unique (by rw [hj]; rfl) (by rw [hpc]; rfl)) hji
  | notify i hpc =>
      by_cases hji : j = i
      · subst j
        simp at hj
      · simp only [Function.update_of_ne hji] at hj
        exact h j (cv.notifyAll_eq (p := .running) (fun _ => by simp [cv]) hj)
  | enter i | leave i | lock i | wait i | block i | unlock i | spurious i =>
      by_cases hji : j = i
      · subst j
        simp [State.goto] at hj
      · simp only [State.goto, Function.update_of_ne hji] at hj
        exact h j hj

/-- A thread that sleeps or is about to is not ready, or a notification is to come. -/
def NoLostWakeup (T : Turns ι σ κ) (s : State ι σ κ) : Prop :=
  ∀ i, s.pc i = .waiting ∨ s.pc i = .blocked →
    T.ready i s.shared = false ∨ ∃ j, s.pc j = .notifying

theorem NoLostWakeup.goto (h : T.NoLostWakeup s) {p : Pc} (hpc : s.pc i ≠ .notifying)
    (hp : p = .waiting ∨ p = .blocked → T.ready i s.shared = false ∨ ∃ j, s.pc j = .notifying) :
    T.NoLostWakeup (s.goto i p) := by
  have hkeep : (∃ j, s.pc j = .notifying) → ∃ j, (s.goto i p).pc j = .notifying := by
    rintro ⟨j, hj⟩
    have hji : j ≠ i := by
      rintro rfl
      exact hpc hj
    exact ⟨j, by simpa [State.goto, Function.update_of_ne hji] using hj⟩
  intro j hj
  by_cases hji : j = i
  · subst j
    simp only [State.goto, Function.update_self] at hj
    exact (hp hj).imp_right hkeep
  · simp only [State.goto, Function.update_of_ne hji] at hj
    exact (h j hj).imp_right hkeep

theorem NoLostWakeup.step (h : T.NoLostWakeup s) (hl : Locked s) (ht : T.Trans s a t) :
    T.NoLostWakeup t := by
  cases ht with
  | enter i hpc | leave i hpc | goOn i hpc | spurious i hpc =>
      exact h.goto (by simp [hpc]) (by simp)
  | lock i hpc hfree =>
      exact h.goto (p := .testing) (by rcases hpc with hpc | hpc <;> simp [hpc]) (by simp)
  | unlock i hpc => exact h.goto (p := .loop) (by simp [hpc]) (by simp)
  | wait i hpc hready => exact h.goto (by simp [hpc]) (fun _ => Or.inl hready)
  | block i hpc => exact h.goto (p := .blocked) (by simp [hpc]) (fun _ => h i (Or.inl hpc))
  | run i hpc => exact fun _ _ => Or.inr ⟨i, by simp [State.goto]⟩
  | notify i hpc =>
      intro j hj
      by_cases hji : j = i
      · subst j
        simp at hj
      · simp only [Function.update_of_ne hji] at hj
        rcases hj with hj | hj
        · have hwait : s.pc j = .waiting :=
            cv.notifyAll_eq (p := .waiting) (fun _ => by simp [cv]) hj
          exact absurd (hl.unique (by rw [hwait]; rfl) (by rw [hpc]; rfl)) hji
        · have hawake := cv.notifyAll_not_blocked s.pc j
          rw [hj] at hawake
          cases hawake

section Reachable

variable {shared : σ} {own : ι → κ}

theorem locked_of_reachable (h : (T.machine shared own).Reachable s) : Locked s := by
  apply h.invariant (I := Locked)
  · intro i
    simp [machine, start, Pc.inside]
  · exact fun _ hi hst => hi.step (step_trans hst)

theorem readyRuns_of_reachable (h : (T.machine shared own).Reachable s) : T.ReadyRuns s := by
  apply h.invariant (I := T.ReadyRuns)
  · intro i hi
    cases hi
  · exact fun hr hi hst => hi.step (locked_of_reachable hr) (step_trans hst)

/-- The rule for the shared value: it is enough that the bodies of ready threads keep the
invariant. -/
theorem shared_invariant {I : σ → Prop} (h : (T.machine shared own).Reachable s) (h₀ : I shared)
    (hbody : ∀ i v, I v → T.ready i v → I (T.body i v).1) : I s.shared := by
  apply h.invariant (I := fun s => I s.shared) h₀
  intro s t a hr hi hst
  cases step_trans hst with
  | run i hpc => exact hbody i _ hi (readyRuns_of_reachable hr i hpc)
  | _ => exact hi

theorem noLostWakeup_of_reachable (h : (T.machine shared own).Reachable s) :
    T.NoLostWakeup s := by
  apply h.invariant (I := T.NoLostWakeup)
  · intro i hi
    rcases hi with hi | hi <;> cases hi
  · exact fun hr hi hst => hi.step (locked_of_reachable hr) (step_trans hst)

/-- The rule for the values of the threads: a body sets the own value, and the other
bodies keep what holds of it. -/
theorem own_invariant {I : ι → σ → κ → Prop} (h : (T.machine shared own).Reachable s)
    (h₀ : ∀ i, I i shared (own i)) (hbody : ∀ i v, T.ready i v → I i (T.body i v).1 (T.body i v).2)
    (hother : ∀ i j v k, T.ready j v → I i v k → I i (T.body j v).1 k) (i : ι) :
    I i s.shared (s.own i) := by
  have hinv : ∀ i, I i s.shared (s.own i) := by
    apply h.invariant (I := fun s => ∀ i, I i s.shared (s.own i)) h₀
    intro s t a hr hi hst
    cases step_trans hst with
    | run j hpc =>
        have hready := readyRuns_of_reachable hr j hpc
        intro i
        by_cases hij : i = j
        · subst i
          simpa using hbody j s.shared hready
        · simpa [Function.update_of_ne hij] using hother i j s.shared (s.own i) hready (hi i)
    | _ => exact hi
  exact hinv i

/-- The rule for the threads that have returned: their loop test failed, and the bodies of
ready threads keep what follows from that. -/
theorem returned_invariant {I : ι → σ → κ → Prop} (h : (T.machine shared own).Reachable s)
    (hleave : ∀ i v k, T.again i v k = false → I i v k)
    (hbody : ∀ i j v k, T.ready j v → I i v k → I i (T.body j v).1 k) {i : ι}
    (hi : s.pc i = .returned) : I i s.shared (s.own i) := by
  have hinv : ∀ i, s.pc i = .returned → I i s.shared (s.own i) := by
    apply h.invariant (I := fun s => ∀ i, s.pc i = .returned → I i s.shared (s.own i)) nofun
    intro s t a hr hi hst j hj
    cases step_trans hst with
    | leave i hpc hagain =>
        by_cases hji : j = i
        · subst j
          exact hleave i _ _ hagain
        · simp only [State.goto, Function.update_of_ne hji] at hj
          exact hi j hj
    | run i hpc =>
        by_cases hji : j = i
        · subst j
          simp [State.goto] at hj
        · simp only [State.goto, Function.update_of_ne hji] at hj ⊢
          exact hbody j i _ _ (readyRuns_of_reachable hr i hpc) (hi j hj)
    | notify i hpc =>
        by_cases hji : j = i
        · subst j
          simp at hj
        · simp only [Function.update_of_ne hji] at hj
          exact hi j (cv.notifyAll_eq (p := .returned) (fun _ => by simp [cv]) hj)
    | enter i | lock i | goOn i | wait i | block i | unlock i | spurious i =>
        by_cases hji : j = i
        · subst j
          simp [State.goto] at hj
        · simp only [State.goto, Function.update_of_ne hji] at hj
          exact hi j hj
  exact hinv i hi

/-- Where nobody can take a step, every thread has returned or sleeps. -/
theorem stuck_cases (h : (T.machine shared own).Reachable s) (hs : T.Stuck s) (i : ι) :
    s.pc i = .returned ∨ s.pc i = .blocked := by
  have hout : ∀ j, (s.pc j).inside = false := by
    intro j
    have hj : T.threadStep s j = none := hs j
    unfold threadStep at hj
    cases hpc : s.pc j with
    | testing | waiting | running | notifying | unlocking =>
        rw [hpc] at hj
        cases hj
    | _ => rfl
  have hfree : s.mutex = none := (locked_of_reachable h).owner_none hout
  have hi : T.threadStep s i = none := hs i
  have hiout := hout i
  unfold threadStep at hi
  cases hpc : s.pc i with
  | loop =>
      rw [hpc] at hi
      cases hi
  | locking | relocking => simp [hpc, hfree] at hi
  | testing | waiting | running | notifying | unlocking => simp [hpc, Pc.inside] at hiout
  | blocked => exact Or.inr rfl
  | returned => exact Or.inl rfl

theorem not_ready_of_stuck (h : (T.machine shared own).Reachable s) (hs : T.Stuck s)
    (hi : s.pc i = .blocked) : T.ready i s.shared = false := by
  rcases noLostWakeup_of_reachable h i (Or.inr hi) with hready | ⟨j, hj⟩
  · exact hready
  · rcases stuck_cases h hs j with hpc | hpc <;> cases hj.symm.trans hpc

theorem stuck_of_cases (h : ∀ i, s.pc i = .returned ∨ s.pc i = .blocked) : T.Stuck s := by
  intro i
  rcases h i with hpc | hpc <;> simp [step, threadStep, hpc]

end Reachable

section Runs

variable {shared : σ} {own : ι → κ}

theorem step_enter (hpc : s.pc i = .loop) (hagain : T.again i s.shared (s.own i)) :
    T.step s (.thread i) = some (s.goto i .locking) := by
  simp [step, threadStep, hpc, hagain]

theorem step_leave (hpc : s.pc i = .loop) (hagain : T.again i s.shared (s.own i) = false) :
    T.step s (.thread i) = some (s.goto i .returned) := by
  simp [step, threadStep, hpc, hagain]

/-- The state after a thread has run its body and is back at the head of its loop. -/
def afterTurn (T : Turns ι σ κ) (s : State ι σ κ) (i : ι) : State ι σ κ where
  shared := (T.body i s.shared).1
  own := Function.update s.own i (T.body i s.shared).2
  pc := Function.update (cv.notifyAll s.pc) i .loop
  mutex := none

theorem update_notifyAll (pc : ι → Pc) (i : ι) (p q : Pc) :
    Function.update (cv.notifyAll (Function.update pc i p)) i q =
      Function.update (cv.notifyAll pc) i q := by
  funext j
  by_cases hji : j = i
  · subst j
    simp
  · simp [Function.update_of_ne hji, CondVar.notifyAll]

omit [DecidableEq ι] in
theorem notifyAll_of_awake {pc : ι → Pc} (h : ∀ j, pc j ≠ .blocked) : cv.notifyAll pc = pc := by
  funext j
  have hj : ¬ cv.blocked (pc j) = true := fun hb => h j (blocked_iff.1 hb)
  simp [CondVar.notifyAll, hj]

/-- A ready thread that wants the free lock can take its whole turn. -/
theorem run_turn (hm : s.mutex = none) (hpc : s.pc i = .locking) (hready : T.ready i s.shared) :
    (T.machine shared own).runFrom s (List.replicate 5 (.thread i)) = some (T.afterTurn s i) := by
  simp [List.replicate, Machine.runFrom, machine, step, threadStep, State.goto, hm, hpc, hready,
    afterTurn, update_notifyAll]

/-- A thread that is not ready and wants the free lock can fall asleep. -/
theorem run_sleep (hm : s.mutex = none) (hpc : s.pc i = .locking)
    (hready : T.ready i s.shared = false) :
    (T.machine shared own).runFrom s (List.replicate 3 (.thread i)) =
      some (s.goto i .blocked) := by
  simp [List.replicate, Machine.runFrom, machine, step, threadStep, State.goto, hm, hpc, hready]

/-- Threads that are not ready fall asleep one after the other. -/
theorem run_sleep_all {is : List ι} (hnd : is.Nodup) (hm : s.mutex = none)
    (hpc : ∀ i ∈ is, s.pc i = .locking) (hready : ∀ i ∈ is, T.ready i s.shared = false)
    (h : (T.machine shared own).Reachable s) :
    ∃ t, (T.machine shared own).Reachable t ∧ t.shared = s.shared ∧
      ∀ j, t.pc j = if j ∈ is then .blocked else s.pc j := by
  induction is generalizing s with
  | nil => exact ⟨s, h, rfl, fun j => by simp⟩
  | cons i is ih =>
      obtain ⟨hnot, hnd⟩ := List.nodup_cons.1 hnd
      have hi : (T.machine shared own).Reachable (s.goto i .blocked) :=
        h.runFrom (run_sleep hm (hpc i List.mem_cons_self) (hready i List.mem_cons_self))
      have hother : ∀ j ∈ is, (s.goto i .blocked).pc j = .locking := by
        intro j hj
        have hji : j ≠ i := fun heq => hnot (heq ▸ hj)
        simp only [State.goto, Function.update_of_ne hji]
        exact hpc j (List.mem_cons_of_mem i hj)
      obtain ⟨t, ht, hshared, hall⟩ := ih (s := s.goto i .blocked) hnd hm hother
        (fun j hj => hready j (List.mem_cons_of_mem i hj)) hi
      refine ⟨t, ht, hshared, fun j => ?_⟩
      rw [hall j]
      by_cases hji : j = i
      · subst j
        simp [State.goto]
      · simp [State.goto, hji]

end Runs

end Turns
end Londa
