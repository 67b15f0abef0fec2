import Londa.Machine
import Londa.Monitor
import Mathlib.Data.Fintype.Card

/-!
# One notification for many waiting threads

Model of `code/concurrent/notify.cpp` with any number of threads. Every thread waits until
`ready` is set and prints its number; `go` sets `ready` and notifies one thread. A thread that
comes after that does not wait, but of those that already sleep only one is woken.
`asleep` records who slept when `notify_one` was called, and `missed` who did afterwards.
-/

namespace Londa.Notify

inductive Pc
  | unborn
  | locking
  | testing
  | waiting
  | blocked
  | relocking
  | printing
  | unlocking
  | returned
  deriving DecidableEq

inductive MainPc
  | spawning
  | locking
  | storing
  | notifying
  | unlocking
  | joining
  | done
  deriving DecidableEq

inductive Thread (n : ℕ)
  | printer (i : Fin n)
  | main
  deriving DecidableEq

structure State (n : ℕ) where
  mtx : Option (Thread n)
  ready : Bool
  pc : Fin n → Pc
  main : MainPc
  out : List (Fin n)
  asleep : Finset (Fin n)
  missed : Finset (Fin n)

inductive Act (n : ℕ)
  | spawn (i : Fin n)
  | printer (i : Fin n)
  | spurious (i : Fin n)
  | main
  | notifyOne (w : Option (Fin n))

variable {n : ℕ}

def cv : CondVar Pc where
  blocked
    | .blocked => true
    | _ => false
  wake _ := .relocking
  wake_not_blocked _ _ := rfl

def init : State n := ⟨none, false, fun _ => .unborn, .spawning, [], ∅, ∅⟩

def State.goto (s : State n) (i : Fin n) (p : Pc) : State n :=
  { s with pc := Function.update s.pc i p }

def State.sleepers (s : State n) : Finset (Fin n) := Finset.univ.filter fun i => s.pc i = .blocked

def printStep (s : State n) (i : Fin n) : Option (State n) :=
  match s.pc i with
  | .locking | .relocking =>
      if s.mtx = none then some { s.goto i .testing with mtx := some (.printer i) } else none
  | .testing => some (s.goto i (if s.ready then .printing else .waiting))
  | .waiting => some { s.goto i .blocked with mtx := none }
  | .printing => some { s.goto i .unlocking with out := s.out ++ [i] }
  | .unlocking => some { s.goto i .returned with mtx := none }
  | .unborn | .blocked | .returned => none

/-- `main` with the body of `go`; it joins the threads when all have returned. -/
def mainStep (s : State n) : Option (State n) :=
  match s.main with
  | .spawning => if ∀ i, s.pc i ≠ .unborn then some { s with main := .locking } else none
  | .locking => if s.mtx = none then some { s with main := .storing, mtx := some .main } else none
  | .storing => some { s with main := .notifying, ready := true }
  | .notifying => none
  | .unlocking => some { s with main := .joining, mtx := none }
  | .joining => if ∀ i, s.pc i = .returned then some { s with main := .done } else none
  | .done => none

def step (s : State n) : Act n → Option (State n)
  | .spawn i =>
      if s.main = .spawning ∧ s.pc i = .unborn then some (s.goto i .locking) else none
  | .printer i => printStep s i
  | .spurious i => if s.pc i = .blocked then some (s.goto i .relocking) else none
  | .main => mainStep s
  | .notifyOne w =>
      if s.main = .notifying then (cv.notifyOne Finset.univ s.pc w).map fun pc =>
        { s with
          main := .unlocking
          pc := pc
          asleep := s.sleepers
          missed := Finset.univ.filter fun i => pc i = .blocked }
      else none

def machine (n : ℕ) : Machine (State n) (Act n) := ⟨init, step⟩

/-- No wakeup but by a notification. -/
def notified (_ : State n) : Act n → Bool
  | .spurious _ => false
  | _ => true

/-- Neither `main` nor a thread can go on. -/
def Quiet (s : State n) : Prop := ∀ a, notified s a → step s a = none

/-- What a step can do. -/
inductive Trans (s : State n) : Act n → State n → Prop
  | spawn (i : Fin n) : s.main = .spawning → s.pc i = .unborn →
      Trans s (.spawn i) (s.goto i .locking)
  | lock (i : Fin n) : s.pc i = .locking ∨ s.pc i = .relocking → s.mtx = none →
      Trans s (.printer i) { s.goto i .testing with mtx := some (.printer i) }
  | goOn (i : Fin n) : s.pc i = .testing → s.ready = true →
      Trans s (.printer i) (s.goto i .printing)
  | wait (i : Fin n) : s.pc i = .testing → s.ready = false →
      Trans s (.printer i) (s.goto i .waiting)
  | block (i : Fin n) : s.pc i = .waiting →
      Trans s (.printer i) { s.goto i .blocked with mtx := none }
  | print (i : Fin n) : s.pc i = .printing →
      Trans s (.printer i) { s.goto i .unlocking with out := s.out ++ [i] }
  | unlock (i : Fin n) : s.pc i = .unlocking →
      Trans s (.printer i) { s.goto i .returned with mtx := none }
  | spurious (i : Fin n) : s.pc i = .blocked → Trans s (.spurious i) (s.goto i .relocking)
  | spawned : s.main = .spawning → (∀ i, s.pc i ≠ .unborn) →
      Trans s .main { s with main := .locking }
  | lockMain : s.main = .locking → s.mtx = none →
      Trans s .main { s with main := .storing, mtx := some .main }
  | store : s.main = .storing → Trans s .main { s with main := .notifying, ready := true }
  | notifyOne (w : Option (Fin n)) (pc : Fin n → Pc) : s.main = .notifying →
      cv.notifyOne Finset.univ s.pc w = some pc →
      Trans s (.notifyOne w) { s with
        main := .unlocking
        pc := pc
        asleep := s.sleepers
        missed := Finset.univ.filter fun i => pc i = .blocked }
  | unlockMain : s.main = .unlocking → Trans s .main { s with main := .joining, mtx := none }
  | join : s.main = .joining → (∀ i, s.pc i = .returned) → Trans s .main { s with main := .done }

variable {s t : State n} {a : Act n} {i j : Fin n}

theorem step_trans (h : step s a = some t) : Trans s a t := by
  cases a with
  | spawn i =>
      simp only [step, Option.ite_none_right_eq_some, Option.some.injEq] at h
      obtain ⟨⟨hmain, hpc⟩, rfl⟩ := h
      exact .spawn i hmain hpc
  | printer i =>
      simp only [step, printStep] at h
      split at h
      · rename_i hpc
        split_ifs at h with hfree
        cases Option.some.inj h
        exact .lock i (Or.inl hpc) hfree
      · rename_i hpc
        split_ifs at h with hfree
        cases Option.some.inj h
        exact .lock i (Or.inr hpc) hfree
      · rename_i hpc
        cases Option.some.inj h
        cases hready : s.ready
        · exact .wait i hpc hready
        · exact .goOn i hpc hready
      · rename_i hpc
        cases Option.some.inj h
        exact .block i hpc
      · rename_i hpc
        cases Option.some.inj h
        exact .print i hpc
      · rename_i hpc
        cases Option.some.inj h
        exact .unlock i hpc
      all_goals cases h
  | spurious i =>
      simp only [step, Option.ite_none_right_eq_some, Option.some.injEq] at h
      obtain ⟨hpc, rfl⟩ := h
      exact .spurious i hpc
  | main =>
      simp only [step, mainStep] at h
      split at h
      · rename_i hmain
        split_ifs at h with hall
        cases Option.some.inj h
        exact .spawned hmain hall
      · rename_i hmain
        split_ifs at h with hfree
        cases Option.some.inj h
        exact .lockMain hmain hfree
      · rename_i hmain
        cases Option.some.inj h
        exact .store hmain
      · cases h
      · rename_i hmain
        cases Option.some.inj h
        exact .unlockMain hmain
      · rename_i hmain
        split_ifs at h with hall
        cases Option.some.inj h
        exact .join hmain hall
      · cases h
  | notifyOne w =>
      simp only [step] at h
      split_ifs at h with hmain
      obtain ⟨pc, hpc, rfl⟩ := Option.map_eq_some_iff.1 h
      exact .notifyOne w pc hmain hpc

def Pc.inside : Pc → Bool
  | .testing => true
  | .waiting => true
  | .printing => true
  | .unlocking => true
  | _ => false

def MainPc.inside : MainPc → Bool
  | .storing => true
  | .notifying => true
  | .unlocking => true
  | _ => false

/-- The threads that hold `mtx`. -/
def State.inside (s : State n) : Thread n → Bool
  | .printer i => (s.pc i).inside
  | .main => s.main.inside

/-- `ready` has been set. -/
def MainPc.stored : MainPc → Bool
  | .notifying => true
  | .unlocking => true
  | .joining => true
  | .done => true
  | _ => false

/-- `notify_one` has been called. -/
def MainPc.past : MainPc → Bool
  | .unlocking => true
  | .joining => true
  | .done => true
  | _ => false

theorem blocked_iff {p : Pc} : cv.blocked p = true ↔ p = .blocked := by
  cases p <;> simp [cv]

def Locked (s : State n) : Prop := Guarded s.inside s.mtx

theorem inside_printer_ne {p : Pc} (th : Thread n) (hne : th ≠ .printer i) :
    (s.goto i p).inside th = s.inside th := by
  cases th with
  | printer j =>
      have hj : j ≠ i := fun heq => hne (by rw [heq])
      simp only [State.inside, State.goto, Function.update_of_ne hj]
  | main => rfl

theorem inside_main_ne (hpc : t.pc = s.pc) (th : Thread n) (hne : th ≠ .main) :
    t.inside th = s.inside th := by
  cases th with
  | printer j => simp only [State.inside, hpc]
  | main => exact absurd rfl hne

theorem inside_goto {p : Pc} (h : p.inside = (s.pc i).inside) (th : Thread n) :
    (s.goto i p).inside th = s.inside th := by
  cases th with
  | printer j => exact update_frame Pc.inside h j
  | main => rfl

theorem inside_of_main (hpc : t.pc = s.pc) (h : t.main.inside = s.main.inside) (th : Thread n) :
    t.inside th = s.inside th := by
  cases th with
  | printer j => simp only [State.inside, hpc]
  | main => exact h

theorem Locked.step (h : Locked s) (ht : Trans s a t) : Locked t := by
  unfold Locked at *
  cases ht with
  | spawn i _ hpc | goOn i hpc | wait i hpc | print i hpc | spurious i hpc =>
      exact h.congr (inside_goto (by rw [hpc]; rfl))
  | lock i hpc hfree =>
      rw [hfree] at h
      refine h.acquire (i := .printer i) ?_ inside_printer_ne
      simp [State.inside, State.goto, Pc.inside]
  | block i hpc | unlock i hpc =>
      refine h.release (i := .printer i) ?_ ?_ inside_printer_ne
      · simp [State.inside, hpc, Pc.inside]
      · simp [State.inside, State.goto, Pc.inside]
  | spawned hmain _ | store hmain | join hmain _ =>
      exact h.congr (inside_of_main rfl (by rw [hmain]; rfl))
  | lockMain hmain hfree =>
      rw [hfree] at h
      apply h.acquire (i := .main)
      · rfl
      · exact inside_main_ne rfl
  | notifyOne w pc hmain hw =>
      apply h.congr
      intro th
      cases th with
      | printer j =>
          refine cv.notifyOne_frame Pc.inside (fun p hp => ?_) hw j
          rw [blocked_iff.1 hp]
          rfl
      | main => simp [State.inside, hmain, MainPc.inside]
  | unlockMain hmain =>
      refine h.release (i := .main) ?_ rfl (inside_main_ne rfl)
      simp [State.inside, hmain, MainPc.inside]

/-- One of the sleepers is woken, if there is one. -/
theorem card_missed {pc : Fin n → Pc} {w : Option (Fin n)}
    (hw : cv.notifyOne Finset.univ s.pc w = some pc) :
    (Finset.univ.filter fun i => pc i = .blocked) ⊆ s.sleepers ∧
      (Finset.univ.filter fun i => pc i = .blocked).card = s.sleepers.card - 1 := by
  rcases cv.notifyOne_eq_some hw with ⟨i, -, hb, rfl⟩ | ⟨hnone, rfl⟩
  · have herase : (Finset.univ.filter fun j =>
        Function.update s.pc i (cv.wake (s.pc i)) j = .blocked) = s.sleepers.erase i := by
      ext j
      rw [Finset.mem_filter, Finset.mem_erase, State.sleepers, Finset.mem_filter]
      by_cases hj : j = i
      · subst j
        simp [cv]
      · simp [hj]
    have hi : i ∈ s.sleepers := by simp [State.sleepers, blocked_iff.1 hb]
    rw [herase]
    exact ⟨Finset.erase_subset i _, Finset.card_erase_of_mem hi⟩
  · have hempty : s.sleepers = ∅ := by
      refine Finset.filter_eq_empty_iff.2 fun i hi hb => ?_
      have hfalse := hnone i hi
      rw [hb] at hfalse
      cases hfalse
    refine ⟨Finset.Subset.refl _, ?_⟩
    show s.sleepers.card = s.sleepers.card - 1
    rw [hempty]
    rfl

structure Inv (s : State n) : Prop where
  stored : s.ready = s.main.stored
  born : s.main ≠ .spawning → ∀ i, s.pc i ≠ .unborn
  asleep : s.main.past → ∀ i, s.pc i = .blocked ↔ i ∈ s.missed
  awake : s.main.past → ∀ i, s.pc i ≠ .waiting
  count : s.main.past → s.missed ⊆ s.asleep ∧ s.missed.card = s.asleep.card - 1
  printed : ∀ i, i ∈ s.out ↔ s.pc i = .unlocking ∨ s.pc i = .returned
  nodup : s.out.Nodup
  joined : s.main = .done → ∀ i, s.pc i = .returned

/-- A thread moves on and prints nothing. -/
theorem Inv.goto (h : Inv s) {p : Pc} {m : Option (Thread n)} (hborn : p ≠ .unborn)
    (hret : s.pc i ≠ .returned)
    (hp : (p = .unlocking ∨ p = .returned) ↔ (s.pc i = .unlocking ∨ s.pc i = .returned))
    (hsleep : s.main.past → (p = .blocked ↔ s.pc i = .blocked) ∧ p ≠ .waiting) :
    Inv { s.goto i p with mtx := m } := by
  refine ⟨h.stored, fun hmain j => ?_, fun hpast j => ?_, fun hpast j => ?_, h.count, fun j => ?_,
    h.nodup, fun hdone => absurd (h.joined hdone i) hret⟩ <;> by_cases hj : j = i
  · subst j
    simpa [State.goto] using hborn
  · simpa [State.goto, hj] using h.born hmain j
  · subst j
    simpa [State.goto, (hsleep hpast).1] using h.asleep hpast i
  · simpa [State.goto, hj] using h.asleep hpast j
  · subst j
    simpa [State.goto] using (hsleep hpast).2
  · simpa [State.goto, hj] using h.awake hpast j
  · subst j
    exact (h.printed i).trans (by simpa [State.goto] using hp.symm)
  · simpa [State.goto, hj] using h.printed j

theorem Inv.step (h : Inv s) (hl : Locked s) (hn : notified s a) (ht : Trans s a t) : Inv t := by
  cases ht with
  | spawn i hmain hpc =>
      exact h.goto (m := s.mtx) (by decide) (by simp [hpc]) (by simp [hpc]) (fun _ => by simp [hpc])
  | lock i hpc hfree =>
      rcases hpc with hpc | hpc <;>
        exact h.goto (by decide) (by simp [hpc]) (by simp [hpc]) (fun _ => by simp [hpc])
  | goOn i hpc hready =>
      exact h.goto (m := s.mtx) (by decide) (by simp [hpc]) (by simp [hpc]) (fun _ => by simp [hpc])
  | wait i hpc hready =>
      refine h.goto (m := s.mtx) (by decide) (by simp [hpc]) (by simp [hpc]) (fun hpast => ?_)
      rw [h.stored] at hready
      cases hm : s.main <;> simp [hm, MainPc.past, MainPc.stored] at hpast hready
  | block i hpc =>
      exact h.goto (by decide) (by simp [hpc]) (by simp [hpc])
        (fun hpast => absurd hpc (h.awake hpast i))
  | unlock i hpc =>
      exact h.goto (by decide) (by simp [hpc]) (by simp [hpc]) (fun _ => by simp [hpc])
  | spurious i hpc => cases hn
  | print i hpc =>
      have hnot : i ∉ s.out := fun hmem => by simpa [hpc] using (h.printed i).1 hmem
      have hgo : ∀ j, j ∈ s.out ++ [i] ↔
          (s.goto i .unlocking).pc j = .unlocking ∨ (s.goto i .unlocking).pc j = .returned := by
        intro j
        by_cases hj : j = i
        · subst j
          simp [State.goto]
        · simpa [State.goto, hj] using h.printed j
      refine ⟨h.stored, fun hmain j => ?_, fun hpast j => ?_, fun hpast j => ?_, h.count, hgo, ?_,
        fun hdone => ?_⟩
      · by_cases hj : j = i
        · subst j
          simp [State.goto]
        · simpa [State.goto, hj] using h.born hmain j
      · by_cases hj : j = i
        · subst j
          simpa [State.goto, hpc] using h.asleep hpast i
        · simpa [State.goto, hj] using h.asleep hpast j
      · by_cases hj : j = i
        · subst j
          simp [State.goto]
        · simpa [State.goto, hj] using h.awake hpast j
      · exact h.nodup.append (List.nodup_singleton i) (List.disjoint_singleton.2 hnot)
      · cases hpc.symm.trans (h.joined hdone i)
  | spawned hmain hall =>
      exact ⟨by rw [h.stored, hmain]; rfl, fun _ => hall, nofun, nofun, nofun, h.printed, h.nodup,
        nofun⟩
  | lockMain hmain hfree =>
      exact ⟨by rw [h.stored, hmain]; rfl, fun _ => h.born (by rw [hmain]; decide), nofun, nofun,
        nofun, h.printed, h.nodup, nofun⟩
  | store hmain =>
      exact ⟨rfl, fun _ => h.born (by rw [hmain]; decide), nofun, nofun, nofun, h.printed, h.nodup,
        nofun⟩
  | notifyOne w pc hmain hw =>
      have hback {p : Pc} (hp : p ≠ .relocking) (j : Fin n) (hj : pc j = p) : s.pc j = p :=
        cv.notifyOne_eq hw (fun _ => Ne.symm hp) hj
      have hout (j : Fin n) : s.pc j ≠ .waiting := by
        intro hj
        have heq := hl.unique (i := .printer j) (j := .main) (by simp [State.inside, hj, Pc.inside])
          (by simp [State.inside, hmain, MainPc.inside])
        cases heq
      refine ⟨by rw [h.stored, hmain]; rfl, fun _ j hj => ?_, fun _ j => by simp, fun _ j hj => ?_,
        fun _ => card_missed hw, fun j => ?_, h.nodup, nofun⟩
      · exact h.born (by rw [hmain]; decide) j (hback (by decide) j hj)
      · exact hout j (hback (by decide) j hj)
      · rw [h.printed j]
        have hkeep (p : Pc) (hp : p = .unlocking ∨ p = .returned) : s.pc j = p ↔ pc j = p := by
          constructor
          · intro hj
            rcases cv.notifyOne_eq_some hw with ⟨i, -, hb, rfl⟩ | ⟨-, rfl⟩
            · have hji : j ≠ i := by
                rintro rfl
                rw [blocked_iff.1 hb] at hj
                rcases hp with rfl | rfl <;> cases hj
              rw [Function.update_of_ne hji, hj]
            · exact hj
          · exact hback (by rcases hp with rfl | rfl <;> decide) j
        rw [hkeep _ (Or.inl rfl), hkeep _ (Or.inr rfl)]
  | unlockMain hmain =>
      have hpast : s.main.past := by rw [hmain]; rfl
      exact ⟨by rw [h.stored, hmain]; rfl, fun _ => h.born (by rw [hmain]; decide),
        fun _ => h.asleep hpast, fun _ => h.awake hpast, fun _ => h.count hpast, h.printed,
        h.nodup, nofun⟩
  | join hmain hall =>
      have hpast : s.main.past := by rw [hmain]; rfl
      exact ⟨by rw [h.stored, hmain]; rfl, fun _ => h.born (by rw [hmain]; decide),
        fun _ => h.asleep hpast, fun _ => h.awake hpast, fun _ => h.count hpast, h.printed,
        h.nodup, fun _ => hall⟩

theorem locked_of_reachable (h : (machine n).Reachable s) : Locked s := by
  apply h.invariant (I := Locked)
  · intro th
    cases th <;> simp [machine, init, State.inside, Pc.inside, MainPc.inside]
  · exact fun _ hi hst => hi.step (step_trans hst)

theorem inv_of_reachable (h : (machine n).ReachableBy (fun s a => notified s a) s) : Inv s := by
  refine h.invariant ?_ fun hr hi hn hst =>
    hi.step (locked_of_reachable hr.reachable) hn (step_trans hst)
  exact ⟨rfl, fun hmain => absurd rfl hmain, nofun, nofun, nofun,
    fun i => by simp [machine, init], List.nodup_nil, nofun⟩

/-- At rest nobody holds `mtx`, and a thread has returned or sleeps. -/
theorem quiet_cases (h : Inv s) (hl : Locked s) (hq : Quiet s) :
    s.main.past ∧ ∀ i, s.pc i = .returned ∨ s.pc i = .blocked := by
  have hprint (i : Fin n) : printStep s i = none := hq (.printer i) rfl
  have hmain : mainStep s = none := hq .main rfl
  have hout : ∀ th, s.inside th = false := by
    intro th
    cases th with
    | printer i =>
        have hi := hprint i
        unfold printStep at hi
        cases hpc : s.pc i <;> simp [hpc, State.inside, Pc.inside] at hi ⊢
    | main =>
        unfold mainStep at hmain
        cases hm : s.main with
        | notifying =>
            obtain ⟨w, pc, hw⟩ := cv.exists_notifyOne Finset.univ s.pc
            have hnone := hq (.notifyOne w) rfl
            simp [step, hm, hw] at hnone
        | _ => simp [hm, State.inside, MainPc.inside] at hmain ⊢
  have hfree : s.mtx = none := hl.owner_none hout
  have hpc (i : Fin n) : s.pc i = .unborn ∨ s.pc i = .returned ∨ s.pc i = .blocked := by
    have hi := hprint i
    have hin := hout (.printer i)
    unfold printStep at hi
    cases hpc : s.pc i <;> simp [hpc, hfree, State.inside, Pc.inside] at hi hin ⊢
  have hborn : s.main ≠ .spawning := by
    intro hm
    have hspawn (i : Fin n) : s.pc i ≠ .unborn := by
      intro hi
      have hnone := hq (.spawn i) rfl
      simp [step, hm, hi] at hnone
    unfold mainStep at hmain
    simp [hm, hspawn] at hmain
  refine ⟨?_, fun i => (hpc i).resolve_left (h.born hborn i)⟩
  have hin := hout .main
  unfold mainStep at hmain
  cases hm : s.main <;>
    simp [hm, hfree, State.inside, MainPc.inside, MainPc.past] at hmain hin hborn ⊢

/-- With wakeups by notification only, at rest every thread has printed its number once but
all those but one that slept when `notify_one` was called; `main` has joined its threads
exactly when at most one slept. -/
theorem printed_iff_awake (h : (machine n).ReachableBy (fun s a => notified s a) s)
    (hq : Quiet s) : s.out.Nodup ∧ s.out.length + (s.asleep.card - 1) = n ∧
      (∀ i, i ∉ s.asleep → i ∈ s.out) ∧ (s.main = .done ↔ s.asleep.card ≤ 1) := by
  have hinv := inv_of_reachable h
  obtain ⟨hpast, hcases⟩ := quiet_cases hinv (locked_of_reachable h.reachable) hq
  obtain ⟨hsub, hcard⟩ := hinv.count hpast
  have hout (i : Fin n) : i ∈ s.out ↔ i ∉ s.missed := by
    rw [hinv.printed i, ← hinv.asleep hpast i]
    rcases hcases i with hi | hi <;> simp [hi]
  have hset : s.out.toFinset = s.missedᶜ := by
    ext i
    rw [List.mem_toFinset, hout i, Finset.mem_compl]
  have hlen : s.out.length = n - s.missed.card := by
    rw [← List.toFinset_card_of_nodup hinv.nodup, hset, Finset.card_compl, Fintype.card_fin]
  have hle : s.missed.card ≤ n := by simpa using Finset.card_le_univ s.missed
  refine ⟨hinv.nodup, by omega, fun i hi => (hout i).2 fun hmem => hi (hsub hmem), ?_⟩
  have hmain : mainStep s = none := hq .main rfl
  have hempty : s.missed.card = 0 ↔ ∀ i, s.pc i = .returned := by
    rw [Finset.card_eq_zero, Finset.eq_empty_iff_forall_notMem]
    refine forall_congr' fun i => ?_
    rw [← hinv.asleep hpast i]
    rcases hcases i with hi | hi <;> simp [hi]
  rw [show s.asleep.card ≤ 1 ↔ s.missed.card = 0 by omega, hempty]
  refine ⟨hinv.joined, fun hall => ?_⟩
  unfold mainStep at hmain
  cases hm : s.main <;> simp [hm, hall, MainPc.past] at hmain hpast ⊢

/-- Both threads sleep when `go` is called, and the second is woken. -/
def twoAsleep (i j : Fin n) : List (Act n) :=
  [.spawn i, .printer i, .printer i, .printer i, .spawn j, .printer j, .printer j, .printer j,
    .main, .main, .main, .notifyOne (some j), .main, .printer j, .printer j, .printer j,
    .printer j]

theorem printed_iff_awake_twoAsleep : ∃ s,
    (machine 2).ReachableBy (fun s a => notified s a) s ∧ Quiet s ∧ s.out = [1] ∧
      s.main = .joining ∧ s.out.length + (s.asleep.card - 1) = 2 ∧
      (s.main = .done ↔ s.asleep.card ≤ 1) := by
  have hrun : ((machine 2).checkedFrom notified (machine 2).init (twoAsleep 0 1)).map
      (fun s => ((s.main, s.out), s.pc 0, s.pc 1)) =
        some ((.joining, [1]), .blocked, .returned) := by decide +kernel
  obtain ⟨s, hs, hview⟩ := Machine.reachableBy_of_checked hrun
  simp only [Prod.mk.injEq] at hview
  obtain ⟨⟨hmain, hout⟩, h0, h1⟩ := hview
  have hq : Quiet s := by
    intro a ha
    cases a with
    | spawn i => simp [step, hmain]
    | printer i =>
        match i with
        | 0 => simp [step, printStep, h0]
        | 1 => simp [step, printStep, h1]
    | spurious i => cases ha
    | main => simp [step, mainStep, hmain, h0]
    | notifyOne w => simp [step, hmain]
  obtain ⟨-, hlen, -, hdone⟩ := printed_iff_awake hs hq
  exact ⟨s, hs, hq, hout, hmain, hlen, hdone⟩

end Londa.Notify
