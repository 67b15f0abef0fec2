import Londa.Turns
import Mathlib.Data.Fin.Basic
import Mathlib.Tactic.FinCases

/-!
# Printing in turn with any number of threads

Model of `print` in `code/concurrent/alternate_print_nt.cpp`, run by `max_p` threads. The
loop test `num <= 100` is an atomic read without the lock. `num` is an `int`, taken to stay
below overflow and not bounded by the model.

A thread that has passed the test waits for its turn however far `num` has gone by then.
With two threads or more the thread whose turn is 101 can pass the test early and print
101, or sleep for ever if the others have left. A run that comes to an end ends well
exactly when every thread passed its test in time for a number up to 100; a single thread
always does.
-/

namespace Londa.AlternatePrint

structure Shared where
  num : ℤ
  printed : List (ℤ × ℤ)

/-- The loop of `print(id)`; a line of output is the id and the number. -/
def print (max_p : ℕ) : Turns (Fin max_p) Shared Unit where
  again _ v _ := v.num ≤ 100
  ready id v := v.num % max_p == id.val
  body id v := ({ num := v.num + 1, printed := v.printed ++ [((id.val : ℤ), v.num)] }, ())

def program (max_p : ℕ) : Machine (Turns.State (Fin max_p) Shared Unit) (Turns.Act (Fin max_p)) :=
  (print max_p).machine ⟨0, []⟩ fun _ => ()

/-- The lines for `0, ..., k - 1`, printed in turn. -/
def lines (max_p k : ℕ) : List (ℤ × ℤ) :=
  (List.range k).map fun j : ℕ => ((j : ℤ) % max_p, (j : ℤ))

variable {max_p : ℕ} {s t : Turns.State (Fin max_p) Shared Unit} {a : Turns.Act (Fin max_p)}

/-- Nothing above 100 is printed, and where nobody can take a step all threads have returned
and the output is `0, ..., 100`, printed in turn. -/
def Orderly (s : Turns.State (Fin max_p) Shared Unit) : Prop :=
  (∀ x ∈ s.shared.printed, x.2 ≤ 100) ∧
    ((print max_p).Stuck s → (∀ id, s.pc id = .returned) ∧ s.shared.printed = lines max_p 101)

def RoundRobin (max_p : ℕ) : Prop := ∀ s, (program max_p).Reachable s → Orderly s

/-- The number that thread `id` prints next. -/
def due (num : ℤ) (id : Fin max_p) : ℤ := num + (id.val - num) % max_p

/-- A thread passes its loop test only while the number it will print is up to 100. -/
def Punctual (s : Turns.State (Fin max_p) Shared Unit) (a : Turns.Act (Fin max_p)) : Prop :=
  ∀ id, a = .thread id → s.pc id = .loop → s.shared.num ≤ 100 → due s.shared.num id ≤ 100

theorem lines_succ (max_p k : ℕ) :
    lines max_p (k + 1) = lines max_p k ++ [((k : ℤ) % max_p, (k : ℤ))] := by
  simp [lines, List.range_succ]

theorem ready_iff {id : Fin max_p} {v : Shared} :
    (print max_p).ready id v = true ↔ v.num % max_p = id.val := by
  simp [print]

theorem body_of_ready {id : Fin max_p} {k : ℕ}
    (h : (print max_p).ready id ⟨k, lines max_p k⟩) :
    (print max_p).body id ⟨k, lines max_p k⟩ =
      (⟨(k + 1 : ℕ), lines max_p (k + 1)⟩, ()) := by
  have hid := ready_iff.1 h
  simp [print, lines_succ, hid]

/-- The numbers come out in order, each printed by the thread whose turn it is. -/
theorem shared_eq_lines (h : (program max_p).Reachable s) :
    ∃ k : ℕ, s.shared = ⟨k, lines max_p k⟩ := by
  apply Turns.shared_invariant (I := fun v => ∃ k : ℕ, v = ⟨k, lines max_p k⟩) h ⟨0, rfl⟩
  rintro id _ ⟨k, rfl⟩ hready
  exact ⟨k + 1, by rw [body_of_ready hready]⟩

/-- `k` numbers are printed and all threads are at the head of their loops. -/
def together (k : ℕ) : Turns.State (Fin max_p) Shared Unit where
  shared := ⟨k, lines max_p k⟩
  own _ := ()
  pc _ := .loop
  mutex := none

/-- Thread `v` has passed its loop test, the others are at the head of their loops, and
`k` numbers are printed. -/
def ahead (v : Fin max_p) (k : ℕ) : Turns.State (Fin max_p) Shared Unit :=
  (together k).goto v .locking

theorem ahead_pc (v : Fin max_p) (k : ℕ) : (ahead v k).pc v = .locking := by
  simp [ahead, Turns.State.goto]

theorem ahead_pc_of_ne {v id : Fin max_p} (h : id ≠ v) (k : ℕ) : (ahead v k).pc id = .loop := by
  simp [ahead, together, Turns.State.goto, Function.update_of_ne h]

theorem ahead_awake (v : Fin max_p) (k : ℕ) (j : Fin max_p) : (ahead v k).pc j ≠ .blocked := by
  by_cases hj : j = v
  · subst j
    simp [ahead_pc]
  · simp [ahead_pc_of_ne hj]

theorem reachable_ahead {v : Fin max_p} {k : ℕ} (hk : k ≤ 100)
    (h : (program max_p).Reachable (together k)) : (program max_p).Reachable (ahead v k) := by
  have henter : (program max_p).step (together k) (.thread v) =
      some ((together k).goto v .locking) := by
    apply Turns.step_enter (s := together k) rfl
    simp only [print, together, decide_eq_true_eq]
    omega
  exact h.step henter

theorem afterTurn_eq {id : Fin max_p} {k : ℕ} (hs : s.shared = ⟨k, lines max_p k⟩)
    (hid : (k : ℤ) % max_p = id.val) (hb : ∀ j, s.pc j ≠ .blocked) :
    (print max_p).afterTurn s id =
      ⟨⟨(k + 1 : ℕ), lines max_p (k + 1)⟩, fun _ => (), Function.update s.pc id .loop, none⟩ := by
  have hbody := body_of_ready (ready_iff.2 hid)
  unfold Turns.afterTurn
  rw [Turns.notifyAll_of_awake hb, hs, hbody]

/-- The thread ahead takes its turn and passes its loop test again. -/
theorem ahead_own_turn {v : Fin max_p} {k : ℕ} (hk : k < 100) (hv : (k : ℤ) % max_p = v.val)
    (h : (program max_p).Reachable (ahead v k)) : (program max_p).Reachable (ahead v (k + 1)) := by
  have hturn := h.runFrom (Turns.run_turn rfl (ahead_pc v k) (ready_iff.2 hv))
  have hpc : Function.update (ahead v k).pc v .loop = fun _ => .loop := by
    simp only [ahead, together, Turns.State.goto, Function.update_idem]
    exact Function.update_eq_self v fun _ => Turns.Pc.loop
  rw [afterTurn_eq rfl hv (ahead_awake v k), hpc] at hturn
  exact reachable_ahead (by omega) hturn

/-- Another thread passes its loop test and takes its turn. -/
theorem ahead_other_turn {v id : Fin max_p} {k : ℕ} (hk : k ≤ 100) (hne : id ≠ v)
    (hid : (k : ℤ) % max_p = id.val) (h : (program max_p).Reachable (ahead v k)) :
    (program max_p).Reachable (ahead v (k + 1)) := by
  have henter : (program max_p).step (ahead v k) (.thread id) =
      some ((ahead v k).goto id .locking) := by
    apply Turns.step_enter (ahead_pc_of_ne hne k)
    simp only [print, ahead, together, Turns.State.goto, decide_eq_true_eq]
    omega
  have hawake : ∀ j, ((ahead v k).goto id .locking).pc j ≠ .blocked := by
    intro j
    by_cases hj : j = id
    · subst j
      simp [Turns.State.goto]
    · simpa [Turns.State.goto, hj] using ahead_awake v k j
  have hturn := (h.step henter).runFrom
    (Turns.run_turn rfl (by simp [Turns.State.goto]) (ready_iff.2 hid))
  have hpc : Function.update ((ahead v k).goto id .locking).pc id .loop = (ahead v k).pc := by
    simp only [Turns.State.goto, Function.update_idem]
    rw [← ahead_pc_of_ne hne k]
    exact Function.update_eq_self id _
  rw [afterTurn_eq rfl hid hawake, hpc] at hturn
  exact hturn

/-- Every number is some thread's turn. -/
theorem exists_turn (hpos : 1 ≤ max_p) (k : ℕ) : ∃ id : Fin max_p, (k : ℤ) % max_p = id.val :=
  ⟨⟨k % max_p, Nat.mod_lt k hpos⟩, by simp⟩

/-- The thread whose turn is 101 can be past its loop test throughout. -/
theorem reachable_ahead_all {v : Fin max_p} (hmax : 2 ≤ max_p) (hv : (101 : ℤ) % max_p = v.val)
    {k : ℕ} (hk : k ≤ 101) : (program max_p).Reachable (ahead v k) := by
  have hpos : 1 ≤ max_p := by omega
  induction k with
  | zero => exact reachable_ahead (by omega) .init
  | succ k ih =>
      obtain ⟨id, hid⟩ := exists_turn hpos k
      have hprev := ih (by omega)
      by_cases hne : id = v
      · subst id
        have hk' : k ≠ 100 := by
          rintro rfl
          have hdvd : (max_p : ℤ) ∣ 101 - 100 :=
            Int.dvd_of_emod_eq_zero (Int.emod_eq_emod_iff_emod_sub_eq_zero.1 (hv.trans hid.symm))
          have := Int.le_of_dvd (by omega) hdvd
          omega
        exact ahead_own_turn (by omega) hid hprev
      · exact ahead_other_turn (by omega) hne hid hprev

/-- With two threads or more 101 can be printed. -/
theorem exists_overshoot (hmax : 2 ≤ max_p) :
    ∃ s, (program max_p).Reachable s ∧ ∃ x ∈ s.shared.printed, x.2 = 101 := by
  have hpos : 1 ≤ max_p := by omega
  obtain ⟨v, hv⟩ := exists_turn hpos 101
  have hahead := reachable_ahead_all hmax hv le_rfl
  have hturn := hahead.runFrom (Turns.run_turn rfl (ahead_pc v 101) (ready_iff.2 hv))
  refine ⟨_, hturn, ((v.val : ℤ), 101), ?_, rfl⟩
  simp [Turns.afterTurn, print, ahead, together, Turns.State.goto]

theorem le_due (hpos : 1 ≤ max_p) (num : ℤ) (id : Fin max_p) : num ≤ due num id := by
  have hnonneg := Int.emod_nonneg (id.val - num) (b := max_p) (by omega)
  unfold due
  omega

theorem due_of_turn {num : ℤ} {id : Fin max_p} (h : num % max_p = id.val) : due num id = num := by
  unfold due
  rw [← h]
  simp

theorem emod_sub_one {a m : ℤ} (hm : 0 < m) (h : a % m ≠ 0) : (a - 1) % m = a % m - 1 := by
  have hnonneg := Int.emod_nonneg a hm.ne'
  have hlt := Int.emod_lt_of_pos a hm
  have hdiv := Int.emod_add_mul_ediv a m
  have hsplit : a - 1 = (a % m - 1) + m * (a / m) := by omega
  rw [hsplit, Int.add_mul_emod_self_left, Int.emod_eq_of_lt (by omega) (by omega)]

/-- Another thread's turn does not change what is due. -/
theorem due_succ {num : ℤ} {id : Fin max_p} (h : num % max_p ≠ id.val) :
    due (num + 1) id = due num id := by
  have hlt := id.isLt
  have hoff : (id.val - num) % max_p ≠ 0 := by
    intro hzero
    apply h
    rw [← Int.emod_eq_emod_iff_emod_sub_eq_zero] at hzero
    rw [← hzero, Int.emod_eq_of_lt (by omega) (by omega)]
  have hsub := emod_sub_one (by omega) hoff
  unfold due
  rw [← Int.sub_sub, hsub]
  omega

/-- Past the loop test and before the print. -/
def entered : Turns.Pc → Bool
  | .locking => true
  | .testing => true
  | .waiting => true
  | .blocked => true
  | .relocking => true
  | .running => true
  | _ => false

/-- A number above 100 is printed or going to be. -/
def Late (s : Turns.State (Fin max_p) Shared Unit) : Prop :=
  (∃ id, entered (s.pc id) ∧ 100 < due s.shared.num id) ∨ 101 < s.shared.num

theorem late_congr (hpc : ∀ id, entered (t.pc id) = entered (s.pc id))
    (hshared : t.shared = s.shared) : Late t ↔ Late s := by
  unfold Late
  simp only [hpc, hshared]

theorem punctual_of_ne {id : Fin max_p} (h : s.pc id ≠ .loop) : Punctual s (.thread id) := by
  rintro _ ⟨⟩ hpc
  exact absurd hpc h

theorem late_enter {id : Fin max_p} (hpc : s.pc id = .loop) (hnum : s.shared.num ≤ 100) :
    Late (s.goto id .locking) ↔ Late s ∨ ¬ Punctual s (.thread id) := by
  have hpunctual : Punctual s (.thread id) ↔ due s.shared.num id ≤ 100 :=
    ⟨fun h => h id rfl hpc hnum, by rintro hdue _ ⟨⟩ _ _; exact hdue⟩
  rw [hpunctual, not_le]
  constructor
  · rintro (⟨j, hj, hlate⟩ | hlate)
    · by_cases hji : j = id
      · subst j
        exact Or.inr hlate
      · simp only [Turns.State.goto, Function.update_of_ne hji] at hj
        exact Or.inl (Or.inl ⟨j, hj, hlate⟩)
    · exact Or.inl (Or.inr hlate)
  · rintro ((⟨j, hj, hlate⟩ | hlate) | hlate)
    · have hji : j ≠ id := by
        rintro rfl
        rw [hpc] at hj
        cases hj
      exact Or.inl ⟨j, by simpa [Turns.State.goto, Function.update_of_ne hji] using hj, hlate⟩
    · exact Or.inr hlate
    · exact Or.inl ⟨id, by simp [Turns.State.goto, entered], hlate⟩

/-- A print moves a number above 100 from the ones that are due to the ones printed. -/
theorem late_run {id : Fin max_p} (hpc : s.pc id = .running)
    (hready : (print max_p).ready id s.shared) (hnum : t.shared.num = s.shared.num + 1)
    (ht : t.pc = Function.update s.pc id .notifying) : Late t ↔ Late s := by
  have hturn := ready_iff.1 hready
  have hown := due_of_turn hturn
  have hother : ∀ j, j ≠ id → due (s.shared.num + 1) j = due s.shared.num j := by
    intro j hj
    apply due_succ
    rw [hturn]
    exact fun heq => hj (Fin.ext (by omega))
  unfold Late
  rw [hnum, ht]
  constructor
  · rintro (⟨j, hj, hlate⟩ | hlate)
    · have hji : j ≠ id := by
        rintro rfl
        simp [entered] at hj
      rw [Function.update_of_ne hji] at hj
      rw [hother j hji] at hlate
      exact Or.inl ⟨j, hj, hlate⟩
    · exact Or.inl ⟨id, by rw [hpc]; rfl, by omega⟩
  · rintro (⟨j, hj, hlate⟩ | hlate)
    · by_cases hji : j = id
      · subst j
        exact Or.inr (by omega)
      · exact Or.inl ⟨j, by rwa [Function.update_of_ne hji], by rwa [hother j hji]⟩
    · exact Or.inr (by omega)

/-- Lateness comes from passing the loop test too late, and stays. -/
theorem late_step (hr : (program max_p).Reachable s) (hst : (program max_p).step s a = some t) :
    Late t ↔ Late s ∨ ¬ Punctual s a := by
  cases Turns.step_trans hst with
  | enter i hpc hagain => exact late_enter hpc (by simpa [print] using hagain)
  | leave i hpc hagain =>
      have hover : 100 < s.shared.num := by simpa [print] using hagain
      have hpunctual : Punctual s (.thread i) := fun _ _ _ hle => absurd hle (not_le.2 hover)
      rw [or_iff_left (not_not.2 hpunctual)]
      exact late_congr (update_frame entered (by rw [hpc]; rfl)) rfl
  | lock i hpc hfree =>
      rcases hpc with hpc | hpc
      · rw [or_iff_left (not_not.2 (punctual_of_ne (by simp [hpc])))]
        exact late_congr (update_frame entered (by rw [hpc]; rfl)) rfl
      · rw [or_iff_left (not_not.2 (punctual_of_ne (by simp [hpc])))]
        exact late_congr (update_frame entered (by rw [hpc]; rfl)) rfl
  | goOn i hpc | wait i hpc | block i hpc | unlock i hpc =>
      rw [or_iff_left (not_not.2 (punctual_of_ne (by simp [hpc])))]
      exact late_congr (update_frame entered (by rw [hpc]; rfl)) rfl
  | run i hpc =>
      rw [or_iff_left (not_not.2 (punctual_of_ne (by simp [hpc])))]
      exact late_run hpc (Turns.readyRuns_of_reachable hr i hpc) rfl rfl
  | notify i hpc =>
      rw [or_iff_left (not_not.2 (punctual_of_ne (by simp [hpc])))]
      refine late_congr (fun j => ?_) rfl
      by_cases hji : j = i
      · subst j
        simp [hpc, entered]
      · simp only [Function.update_of_ne hji]
        exact Turns.notifyAll_frame entered rfl s.pc j
  | spurious i hpc =>
      rw [or_iff_left (not_not.2 nofun)]
      exact late_congr (update_frame entered (by rw [hpc]; rfl)) rfl

theorem not_late_of_punctual (h : (program max_p).ReachableBy Punctual s) : ¬ Late s := by
  apply h.invariant (I := fun s => ¬ Late s)
  · rintro (⟨id, hid, -⟩ | hnum)
    · cases hid
    · cases hnum
  · intro s t a hr hi hc hst
    rw [late_step hr.reachable hst]
    exact not_or.2 ⟨hi, not_not.2 hc⟩

theorem mem_lines {k : ℕ} {x : ℤ × ℤ} (h : x ∈ lines max_p k) : x.2 < k := by
  obtain ⟨j, hj, rfl⟩ := List.mem_map.1 h
  have hlt := List.mem_range.1 hj
  dsimp only
  omega

/-- A thread returns only after 100 is printed. -/
theorem over_of_returned (h : (program max_p).Reachable s) {id : Fin max_p}
    (hid : s.pc id = .returned) : 100 < s.shared.num := by
  apply Turns.returned_invariant (I := fun _ v _ => 100 < v.num) h _ _ hid
  · intro _ v _ hagain
    simpa [print] using hagain
  · intro _ _ v _ _ hover
    simp only [print]
    omega

/-- Where nobody is late, a thread that sleeps leaves somebody else to go on. -/
theorem returned_of_stuck (hpos : 1 ≤ max_p) (h : (program max_p).Reachable s) (hl : ¬ Late s)
    (hs : (print max_p).Stuck s) (id : Fin max_p) : s.pc id = .returned := by
  rcases Turns.stuck_cases h hs id with hret | hsleep
  · exact hret
  · exfalso
    have hdue : due s.shared.num id ≤ 100 := by
      by_contra hlate
      exact hl (Or.inl ⟨id, by rw [hsleep]; rfl, not_le.1 hlate⟩)
    have hle := le_due hpos s.shared.num id
    obtain ⟨k, hk⟩ := shared_eq_lines h
    obtain ⟨j, hj⟩ := exists_turn hpos k
    have hready : (print max_p).ready j s.shared := ready_iff.2 (by rw [hk]; exact hj)
    rcases Turns.stuck_cases h hs j with hret | hblock
    · have hover := over_of_returned h hret
      omega
    · rw [Turns.not_ready_of_stuck h hs hblock] at hready
      cases hready

theorem orderly_of_not_late (hpos : 1 ≤ max_p) (h : (program max_p).Reachable s)
    (hl : ¬ Late s) : Orderly s := by
  obtain ⟨k, hk⟩ := shared_eq_lines h
  have hle : s.shared.num ≤ 101 := not_lt.1 fun hover => hl (Or.inr hover)
  rw [hk] at hle
  dsimp only at hle
  constructor
  · intro x hx
    rw [hk] at hx
    have hlt := mem_lines hx
    omega
  · intro hs
    have hret := returned_of_stuck hpos h hl hs
    refine ⟨hret, ?_⟩
    have hover := over_of_returned h (hret ⟨0, hpos⟩)
    rw [hk] at hover ⊢
    dsimp only at hover ⊢
    obtain rfl : k = 101 := by omega
    rfl

theorem not_late_of_orderly (h : (program max_p).Reachable s) (hs : (print max_p).Stuck s)
    (hin : Orderly s) : ¬ Late s := by
  obtain ⟨hret, hprinted⟩ := hin.2 hs
  obtain ⟨k, hk⟩ := shared_eq_lines h
  rintro (⟨id, hid, -⟩ | hover)
  · rw [hret id] at hid
    cases hid
  · rw [hk] at hprinted hover
    have hlen := congrArg List.length hprinted
    simp only [lines, List.length_map, List.length_range] at hlen hover
    omega

theorem punctual_one {s : Turns.State (Fin 1) Shared Unit} (a : Turns.Act (Fin 1)) :
    Punctual s a := by
  intro id _ _ hnum
  rw [due_of_turn]
  · exact hnum
  · omega

theorem roundRobin_iff (hpos : 1 ≤ max_p) :
    (RoundRobin max_p ↔ max_p = 1) ∧
      (∀ s, (program max_p).ReachableBy Punctual s → Orderly s) ∧
      ∀ as s, (program max_p).run as = some s → (print max_p).Stuck s →
        (Orderly s ↔ (program max_p).Meets Punctual (program max_p).init as) := by
  have henough : ∀ s, (program max_p).ReachableBy Punctual s → Orderly s :=
    fun s h => orderly_of_not_late hpos h.reachable (not_late_of_punctual h)
  refine ⟨⟨fun h => ?_, ?_⟩, henough, fun as s h hs => ⟨fun hin => ?_, fun hm => ?_⟩⟩
  · by_contra hne
    have hmany : 2 ≤ max_p := by omega
    obtain ⟨s, hs, x, hx, hover⟩ := exists_overshoot hmany
    have hle := (h s hs).1 x hx
    omega
  · rintro rfl s h
    exact henough s (h.mono fun _ a _ => punctual_one a)
  · have hreach := Machine.reachable_of_run as h
    apply Machine.Reachable.meets_of_mark (K := Late) .init _ _ h
      (not_late_of_orderly hreach hs hin)
    · exact fun hr hc hst => (late_step hr hst).2 (Or.inr hc)
    · exact fun hr hk hst => (late_step hr hst).2 (Or.inl hk)
  · exact henough s (.runFrom .init hm h)

/-- The threads print `0, ..., k - 1`, each passing its loop test right before its turn. -/
def inTurn (max_p k : ℕ) [NeZero max_p] : List (Turns.Act (Fin max_p)) :=
  (List.range k).flatMap fun j => List.replicate 6 (.thread (Fin.ofNat max_p j))

theorem roundRobin_iff_two :
    ¬ RoundRobin 2 ∧ ∃ s, (program 2).run (inTurn 2 101 ++ [.thread 0, .thread 1]) = some s ∧
      (print 2).Stuck s ∧ (program 2).Meets Punctual (program 2).init
        (inTurn 2 101 ++ [.thread 0, .thread 1]) ∧ Orderly s := by
  have hrun : ((program 2).checkedFrom (fun s a => match a with
      | .thread id =>
          decide (s.pc id = .loop → s.shared.num ≤ 100 → due s.shared.num id ≤ 100)
      | .spurious _ => true) (program 2).init (inTurn 2 101 ++ [.thread 0, .thread 1])).map
        (fun s => (s.pc 0, s.pc 1)) = some (.returned, .returned) := by decide +kernel
  obtain ⟨s, hs, hview⟩ := Option.map_eq_some_iff.1 hrun
  obtain ⟨hzero, hone⟩ := Prod.mk.inj hview
  have hstuck : (print 2).Stuck s := by
    apply Turns.stuck_of_cases
    intro i
    fin_cases i
    · exact Or.inl hzero
    · exact Or.inl hone
  have hmeets : (program 2).Meets Punctual (program 2).init
      (inTurn 2 101 ++ [.thread 0, .thread 1]) := by
    apply Machine.meets_of_checked _ hs
    rintro s _ hc id rfl
    exact of_decide_eq_true hc
  have hrun' := Machine.runFrom_of_checked hs
  have htwo : 1 ≤ 2 := by decide
  obtain ⟨hiff, -, hends⟩ := roundRobin_iff htwo
  exact ⟨fun h => absurd (hiff.1 h) (by decide), s, hrun', hstuck, hmeets,
    (hends _ s hrun' hstuck).2 hmeets⟩

/-- With two threads `print(1)` passes its loop test before 100 is printed and prints 101.
With three `print(0)` passes its test after 99, and sleeps for ever once the others have
seen 101 and returned. -/
theorem overshoot_and_sleep :
    (∃ s, (program 2).Reachable s ∧ (1, 101) ∈ s.shared.printed) ∧ ¬ RoundRobin 2 ∧
      ∃ s, (program 3).Reachable s ∧ (print 3).Stuck s ∧ s.pc 0 = .blocked := by
  have hrun : ((program 2).run (inTurn 2 100 ++ .thread 1 :: List.replicate 6 (.thread 0) ++
      List.replicate 5 (.thread 1))).map (fun s => s.shared.printed.getLast?) =
        some (some (1, 101)) := by decide +kernel
  obtain ⟨s, -, hreach, hlast⟩ := Machine.reachable_of_run_map hrun
  have hmem := List.mem_of_getLast? hlast
  have hsleep : ((program 3).run (inTurn 3 100 ++ List.replicate 4 (.thread 0) ++
      List.replicate 7 (.thread 1) ++ .thread 2 :: List.replicate 3 (.thread 0))).map
        (fun s => (s.pc 0, s.pc 1, s.pc 2)) = some (.blocked, .returned, .returned) := by
    decide +kernel
  obtain ⟨t, -, hreach', hview⟩ := Machine.reachable_of_run_map hsleep
  obtain ⟨hzero, hrest⟩ := Prod.mk.inj hview
  obtain ⟨hone, htwo⟩ := Prod.mk.inj hrest
  have hstuck : (print 3).Stuck t := by
    apply Turns.stuck_of_cases
    intro i
    fin_cases i
    · exact Or.inr hzero
    · exact Or.inl hone
    · exact Or.inl htwo
  refine ⟨⟨s, hreach, hmem⟩, fun h => ?_, t, hreach', hstuck, hzero⟩
  have hle := (h s hreach).1 _ hmem
  exact absurd hle (by decide)

end Londa.AlternatePrint
