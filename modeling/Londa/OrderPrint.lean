import Londa.Turns

/-!
# FizzBuzz with four threads

Model of the class `FizzBuzz` in `code/concurrent/order_print.cpp`. The four member
functions differ in their wait predicate and in what they print; each leaves its loop
when its own print has moved `current` past `n`. `current` and `n` are of type `int` and
are taken to stay below overflow, so the model does not bound them. What a function prints
on leaving is not an item.

The predicates split the integers into four classes, so the items come out in order. The
end is not reached cleanly for any `n`: after item `n` the function that printed it has
left, and the other three are past their loop test. The next one prints item `n + 1`,
or it is the one that has left and the others sleep for ever. This is so in every run that
comes to an end, since a function leaves only after an item of its own.
-/

namespace Londa.OrderPrint

inductive Item
  | fizz
  | buzz
  | fizzBuzz
  | number (x : ℤ)
  deriving DecidableEq

inductive Worker
  | fizz
  | buzz
  | fizzbuzz
  | number
  deriving DecidableEq

def is_3x (x : ℤ) : Bool := x % 3 == 0

def is_5x (x : ℤ) : Bool := x % 5 == 0

def is_15x (x : ℤ) : Bool := x % 15 == 0

def is_simple (x : ℤ) : Bool := !(is_3x x || is_5x x)

/-- A member function: its wait predicate and what it prints. -/
structure Member where
  wait : ℤ → Bool
  print : ℤ → Item

def fizz : Member where
  wait current := !is_15x current && is_3x current
  print _ := .fizz

def buzz : Member where
  wait current := !is_15x current && is_5x current
  print _ := .buzz

def fizzbuzz : Member where
  wait current := is_15x current
  print _ := .fizzBuzz

def number : Member where
  wait current := is_simple current
  print current := .number current

def member : Worker → Member
  | .fizz => fizz
  | .buzz => buzz
  | .fizzbuzz => fizzbuzz
  | .number => number

structure Shared where
  current : ℤ
  printed : List Item

/-- The loop of the member functions; a thread's own value is its `go_on`. -/
def turns (n : ℤ) : Turns Worker Shared Bool where
  again _ _ go_on := go_on
  ready i v := (member i).wait v.current
  body i v :=
    ({ current := v.current + 1, printed := v.printed ++ [(member i).print v.current] },
      !decide (n < v.current + 1))

def program (n : ℤ) : Machine (Turns.State Worker Shared Bool) (Turns.Act Worker) :=
  (turns n).machine ⟨1, []⟩ fun _ => true

/-- The item that belongs to `k`. -/
def FB (k : ℤ) : Item :=
  if 15 ∣ k then .fizzBuzz else if 3 ∣ k then .fizz else if 5 ∣ k then .buzz else .number k

/-- The function that prints the item that belongs to `k`. -/
def worker (k : ℤ) : Worker :=
  if 15 ∣ k then .fizzbuzz else if 3 ∣ k then .fizz else if 5 ∣ k then .buzz else .number

theorem is_3x_iff {k : ℤ} : is_3x k = true ↔ 3 ∣ k := by
  unfold is_3x
  rw [beq_iff_eq]
  omega

theorem is_5x_iff {k : ℤ} : is_5x k = true ↔ 5 ∣ k := by
  unfold is_5x
  rw [beq_iff_eq]
  omega

theorem is_15x_iff {k : ℤ} : is_15x k = true ↔ 15 ∣ k := by
  unfold is_15x
  rw [beq_iff_eq]
  omega

/-- The four predicates split the integers. -/
theorem wait_iff {i : Worker} {k : ℤ} : (member i).wait k = true ↔ i = worker k := by
  have hwait : (member i).wait k = true ↔
      match i with
      | .fizz => ¬ 15 ∣ k ∧ 3 ∣ k
      | .buzz => ¬ 15 ∣ k ∧ 5 ∣ k
      | .fizzbuzz => 15 ∣ k
      | .number => ¬ (3 ∣ k ∨ 5 ∣ k) := by
    cases i <;>
      simp [member, fizz, buzz, fizzbuzz, number, is_simple, ← is_3x_iff, ← is_5x_iff,
        ← is_15x_iff]
  rw [hwait]
  unfold worker
  by_cases h15 : 15 ∣ k
  · have h3 : 3 ∣ k := by omega
    cases i <;> simp [h15, h3]
  · by_cases h3 : 3 ∣ k
    · have h5 : ¬ 5 ∣ k := by omega
      cases i <;> simp [h15, h3, h5]
    · by_cases h5 : 5 ∣ k
      · cases i <;> simp [h15, h3, h5]
      · cases i <;> simp [h15, h3, h5]

theorem print_worker (k : ℤ) : (member (worker k)).print k = FB k := by
  unfold worker FB
  split
  · rfl
  · split
    · rfl
    · split <;> rfl

theorem existsUnique_wait (k : ℤ) : ∃! i, (member i).wait k = true :=
  ⟨worker k, wait_iff.2 rfl, fun _ hi => wait_iff.1 hi⟩

/-- The items that belong to `1, ..., k`. -/
def items (k : ℕ) : List Item := (List.range k).map fun j : ℕ => FB (j + 1)

theorem items_succ (k : ℕ) : items (k + 1) = items k ++ [FB (k + 1)] := by
  simp [items, List.range_succ]

theorem ready_iff {n : ℤ} {i : Worker} {v : Shared} :
    (turns n).ready i v = true ↔ i = worker v.current := wait_iff

theorem body_of_ready {n : ℤ} {i : Worker} {k : ℕ} (h : (turns n).ready i ⟨k + 1, items k⟩) :
    (turns n).body i ⟨k + 1, items k⟩ =
      (⟨(k + 1 : ℕ) + 1, items (k + 1)⟩, !decide (n < (k + 1 : ℕ) + 1)) := by
  have hi : i = worker (k + 1) := wait_iff.1 h
  simp [turns, items_succ, hi, print_worker]

variable {n : ℤ} {s : Turns.State Worker Shared Bool}

theorem shared_eq_items (h : (program n).Reachable s) :
    ∃ k : ℕ, s.shared = ⟨k + 1, items k⟩ := by
  apply Turns.shared_invariant (I := fun v => ∃ k : ℕ, v = ⟨k + 1, items k⟩) h ⟨0, rfl⟩
  rintro i _ ⟨k, rfl⟩ hready
  exact ⟨k + 1, by rw [body_of_ready hready]⟩

theorem printed_in_order (h : (program n).Reachable s) :
    1 ≤ s.shared.current ∧ s.shared.printed = items (s.shared.current - 1).toNat ∧
      ∃! i, (member i).wait s.shared.current = true := by
  obtain ⟨k, hk⟩ := shared_eq_items h
  rw [hk]
  refine ⟨?_, by simp, existsUnique_wait _⟩
  dsimp only
  omega

/-- Every function makes its first loop test, then `k` items are printed in turn. -/
def inTurn (k : ℕ) : List (Turns.Act Worker) :=
  [.thread .fizz, .thread .buzz, .thread .fizzbuzz, .thread .number] ++
    (List.range k).flatMap fun j : ℕ => List.replicate 6 (.thread (worker (j + 1)))

theorem printed_in_order_three :
    ∃ s, (program 5).run (inTurn 3) = some s ∧ s.shared.current = 4 ∧
      s.shared.printed = [.number 1, .number 2, .fizz] ∧ s.shared.printed = items 3 := by
  have hrun : ((program 5).run (inTurn 3)).map (fun s => (s.shared.current, s.shared.printed)) =
      some (4, [.number 1, .number 2, .fizz]) := by decide +kernel
  obtain ⟨s, hs, hreach, hview⟩ := Machine.reachable_of_run_map hrun
  obtain ⟨hcur, hprinted⟩ := Prod.mk.inj hview
  have horder := (printed_in_order hreach).2.1
  rw [hcur] at horder
  exact ⟨s, hs, hcur, hprinted, horder⟩

/-- The number of items never exceeds `n`, and where nobody can take a step all four
functions have returned. -/
def StopsAt (n : ℤ) : Prop :=
  ∀ s, (program n).Reachable s → s.shared.printed.length ≤ n ∧
    ((turns n).Stuck s → ∀ i, s.pc i = .returned)

/-- `k` items are printed and every function wants the lock. -/
def allWaiting (k : ℕ) : Turns.State Worker Shared Bool where
  shared := ⟨k + 1, items k⟩
  own _ := true
  pc _ := .locking
  mutex := none

theorem reachable_allWaiting_zero : (program n).Reachable (allWaiting 0) := by
  apply Machine.reachable_of_run [.thread .fizz, .thread .buzz, .thread .fizzbuzz, .thread .number]
  have hpc : ∀ i, Function.update (Function.update (Function.update (Function.update
      (fun _ => Turns.Pc.loop) Worker.fizz .locking) .buzz .locking) .fizzbuzz .locking)
        .number .locking i = .locking := by
    intro i
    cases i <;> simp
  simp [program, Turns.machine, Machine.run, Machine.runFrom, Turns.step, Turns.threadStep,
    Turns.start, Turns.State.goto, turns, allWaiting, items, funext hpc]

/-- The function whose item is next has printed it and is at the head of its loop. -/
def atLoop (n : ℤ) (k : ℕ) : Turns.State Worker Shared Bool where
  shared := ⟨(k + 1 : ℕ) + 1, items (k + 1)⟩
  own := Function.update (fun _ => true) (worker (k + 1)) (!decide (n < (k + 1 : ℕ) + 1))
  pc := Function.update (fun _ => .locking) (worker (k + 1)) .loop
  mutex := none

theorem reachable_atLoop {k : ℕ} (h : (program n).Reachable (allWaiting k)) :
    (program n).Reachable (atLoop n k) := by
  have hready : (turns n).ready (worker (k + 1)) (allWaiting k).shared := wait_iff.2 rfl
  have hturn : (turns n).afterTurn (allWaiting k) (worker (k + 1)) = atLoop n k := by
    have hbody := body_of_ready hready
    have hpc : Turns.cv.notifyAll (allWaiting k).pc = (allWaiting k).pc :=
      Turns.notifyAll_of_awake (fun _ => by simp [allWaiting])
    unfold Turns.afterTurn atLoop
    rw [hpc]
    simp only [allWaiting]
    rw [hbody]
  exact hturn ▸ h.runFrom (Turns.run_turn rfl rfl hready)

/-- As long as fewer than `n` items are printed, everybody can be waiting for the lock. -/
theorem reachable_allWaiting {k : ℕ} (hk : k < n) : (program n).Reachable (allWaiting k) := by
  induction k with
  | zero => exact reachable_allWaiting_zero
  | succ k ih =>
      have hmore : (!decide (n < (k + 1 : ℕ) + 1)) = true := by
        simp only [Bool.not_eq_true', decide_eq_false_iff_not]
        omega
      have henter : (program n).step (atLoop n k) (.thread (worker (k + 1))) =
          some ((atLoop n k).goto (worker (k + 1)) .locking) := by
        apply Turns.step_enter
        · simp [atLoop]
        · simpa [turns, atLoop] using hmore
      have hown : Function.update (fun _ : Worker => true) (worker (k + 1)) true = fun _ => true :=
        Function.update_eq_self _ _
      have hpc : Function.update (fun _ : Worker => Turns.Pc.locking) (worker (k + 1)) .locking =
          fun _ => .locking := Function.update_eq_self _ _
      have hsame : (atLoop n k).goto (worker (k + 1)) .locking = allWaiting (k + 1) := by
        simp only [atLoop, allWaiting, Turns.State.goto, hmore, hown, Function.update_idem, hpc]
      exact hsame ▸ (reachable_atLoop (ih (by omega))).step henter

/-- All `n` items are printed, and the function that printed the last has returned. -/
def lastReturned (n : ℤ) (k : ℕ) : Turns.State Worker Shared Bool :=
  (atLoop n k).goto (worker (k + 1)) .returned

theorem reachable_lastReturned {k : ℕ} (hk : n = k + 1) :
    (program n).Reachable (lastReturned n k) := by
  have hleave : (program n).step (atLoop n k) (.thread (worker (k + 1))) =
      some (lastReturned n k) := by
    apply Turns.step_leave
    · simp [atLoop]
    · simp [turns, atLoop]
      omega
  exact (reachable_atLoop (reachable_allWaiting (by omega))).step hleave

theorem lastReturned_pc {k : ℕ} {j : Worker} (hj : j ≠ worker (k + 1)) :
    (lastReturned n k).pc j = .locking := by
  simp [lastReturned, atLoop, Turns.State.goto, hj]

/-- If the item after the last belongs to another function, that function prints it. -/
theorem exists_overshoot {k : ℕ} (hk : n = k + 1)
    (hnext : worker ((k + 1 : ℕ) + 1) ≠ worker (k + 1)) :
    ∃ s, (program n).Reachable s ∧ s.shared.printed.length = k + 2 := by
  have hready : (turns n).ready (worker ((k + 1 : ℕ) + 1)) (lastReturned n k).shared :=
    ready_iff.2 rfl
  have hrun := (reachable_lastReturned hk).runFrom
    (Turns.run_turn rfl (lastReturned_pc hnext) hready)
  refine ⟨_, hrun, ?_⟩
  simp [Turns.afterTurn, turns, lastReturned, Turns.State.goto, atLoop, items]

/-- If it belongs to the function that has returned, the other three fall asleep. -/
theorem exists_stall {k : ℕ} (hk : n = k + 1)
    (hnext : worker ((k + 1 : ℕ) + 1) = worker (k + 1)) :
    ∃ s, (program n).Reachable s ∧ (turns n).Stuck s ∧ ∃ j, s.pc j = .blocked := by
  let others := [Worker.fizz, .buzz, .fizzbuzz, .number].filter fun j => j ≠ worker (k + 1)
  have hothers : ∀ j, j ∈ others ↔ j ≠ worker (k + 1) := by
    intro j
    cases j <;> simp [others]
  have hpc : ∀ j ∈ others, (lastReturned n k).pc j = .locking :=
    fun j hj => lastReturned_pc ((hothers j).1 hj)
  have hready : ∀ j ∈ others, (turns n).ready j (lastReturned n k).shared = false := by
    intro j hj
    rw [Bool.eq_false_iff]
    intro hready
    exact (hothers j).1 hj ((ready_iff.1 hready).trans hnext)
  have hnd : others.Nodup := List.Nodup.filter _ (by decide)
  obtain ⟨t, ht, -, hsleep⟩ := Turns.run_sleep_all hnd rfl hpc hready (reachable_lastReturned hk)
  refine ⟨t, ht, Turns.stuck_of_cases (fun j => ?_), ?_⟩
  · rw [hsleep j]
    by_cases hj : j = worker (k + 1)
    · subst j
      simp [hothers, lastReturned, Turns.State.goto]
    · simp [hothers, hj]
  · obtain ⟨j, hj⟩ : ∃ j, j ≠ worker (k + 1) := by
      cases worker (k + 1) with
      | fizz => exact ⟨.buzz, by decide⟩
      | buzz | fizzbuzz | number => exact ⟨.fizz, by decide⟩
    exact ⟨j, by rw [hsleep j, if_pos ((hothers j).2 hj)]⟩

/-- A function that leaves has printed an item that belongs to `n` or a later number. -/
theorem exists_late_item (h : (program n).Reachable s) {i : Worker} (hi : s.pc i = .returned) :
    ∃ k, n ≤ k ∧ k < s.shared.current ∧ worker k = i := by
  have hleft : s.own i = false := by
    apply Turns.returned_invariant (I := fun _ _ go_on => go_on = false) h _ _ hi
    · exact fun _ _ _ hagain => hagain
    · exact fun _ _ _ _ _ hfalse => hfalse
  have hown : s.own i = false → ∃ k, n ≤ k ∧ k < s.shared.current ∧ worker k = i := by
    apply Turns.own_invariant (I := fun i v go_on =>
      go_on = false → ∃ k, n ≤ k ∧ k < v.current ∧ worker k = i) h
    · exact fun _ => nofun
    · intro i v hready hstop
      have hlast : n < v.current + 1 := by simpa [turns] using hstop
      exact ⟨v.current, by omega, by simp only [turns]; omega, (ready_iff.1 hready).symm⟩
    · intro i j v go_on _ hold hstop
      obtain ⟨k, hn, hlt, hk⟩ := hold hstop
      exact ⟨k, hn, by simp only [turns]; omega, hk⟩
  exact hown hleft

/-- No run ends well: `fizz` and `buzz` return only after two different items that belong
to `n` or later numbers. -/
theorem overshoot_or_stall (h : (program n).Reachable s) (hs : (turns n).Stuck s) :
    n < s.shared.printed.length ∨ ∃ i, s.pc i = .blocked := by
  by_cases hsleep : ∃ i, s.pc i = .blocked
  · exact Or.inr hsleep
  · have hret : ∀ i, s.pc i = .returned := fun i =>
      (Turns.stuck_cases h hs i).resolve_right fun hi => hsleep ⟨i, hi⟩
    obtain ⟨k, hk, hlt, hfizz⟩ := exists_late_item h (hret .fizz)
    obtain ⟨l, hl, hlt', hbuzz⟩ := exists_late_item h (hret .buzz)
    have hne : k ≠ l := by
      rintro rfl
      rw [hfizz] at hbuzz
      cases hbuzz
    obtain ⟨m, hm⟩ := shared_eq_items h
    rw [hm] at hlt hlt' ⊢
    simp only [items, List.length_map, List.length_range] at hlt hlt' ⊢
    exact Or.inl (by omega)

theorem not_stopsAt (hn : 1 ≤ n) :
    ¬ StopsAt n ∧ ∀ s, (program n).Reachable s → (turns n).Stuck s →
      n < s.shared.printed.length ∨ ∃ i, s.pc i = .blocked := by
  refine ⟨fun hstops => ?_, fun s => overshoot_or_stall⟩
  obtain ⟨k, hk⟩ : ∃ k : ℕ, n = k + 1 := ⟨(n - 1).toNat, by omega⟩
  by_cases hnext : worker ((k + 1 : ℕ) + 1) = worker (k + 1)
  · obtain ⟨s, hs, hstuck, j, hj⟩ := exists_stall hk hnext
    have hret := (hstops s hs).2 hstuck j
    rw [hj] at hret
    cases hret
  · obtain ⟨s, hs, hlen⟩ := exists_overshoot hk hnext
    have hle := (hstops s hs).1
    omega

theorem not_stopsAt_main : (1 : ℤ) ≤ 23 ∧ ¬ StopsAt 23 :=
  ⟨by decide, (not_stopsAt (by decide)).1⟩

/-- With the 23 items of `main` a 24th is printed; with one item three functions sleep for
ever. -/
theorem overshoot_and_stall :
    (∃ s, (program 23).Reachable s ∧ s.shared.printed.length = 24) ∧ ¬ StopsAt 23 ∧
      ∃ s, (program 1).Reachable s ∧ (turns 1).Stuck s ∧ s.pc .fizz = .blocked ∧
        s.pc .number = .returned := by
  have hrun : ((program 23).run (inTurn 23 ++ List.replicate 5 (.thread .fizz))).map
      (fun s => s.shared.printed.length) = some 24 := by decide +kernel
  obtain ⟨s, -, hreach, hlen⟩ := Machine.reachable_of_run_map hrun
  have hsleep : ((program 1).run (inTurn 1 ++ List.replicate 3 (.thread .fizz) ++
      List.replicate 3 (.thread .buzz) ++ List.replicate 3 (.thread .fizzbuzz))).map
        (fun s => (s.pc .fizz, s.pc .buzz, s.pc .fizzbuzz, s.pc .number)) =
          some (.blocked, .blocked, .blocked, .returned) := by decide +kernel
  obtain ⟨t, -, hreach', hview⟩ := Machine.reachable_of_run_map hsleep
  obtain ⟨hfizz, hrest⟩ := Prod.mk.inj hview
  obtain ⟨hbuzz, hrest⟩ := Prod.mk.inj hrest
  obtain ⟨hboth, hnumber⟩ := Prod.mk.inj hrest
  have hstuck : (turns 1).Stuck t := by
    apply Turns.stuck_of_cases
    intro i
    cases i with
    | fizz => exact Or.inr hfizz
    | buzz => exact Or.inr hbuzz
    | fizzbuzz => exact Or.inr hboth
    | number => exact Or.inl hnumber
  refine ⟨⟨s, hreach, hlen⟩, fun hstops => ?_, t, hreach', hstuck, hfizz, hnumber⟩
  have hle := (hstops s hreach).1
  rw [hlen] at hle
  exact absurd hle (by decide)

end Londa.OrderPrint
