import Londa.ThreadSaferCounter

/-!
# Readers and writers that print the counter

Every thread locks `mtx`, calls the counter and prints the result before it unlocks `mtx`
again. The lines therefore come in the order of the calls, and a thread that waits for a
mutex waits for one that can go on.
-/

namespace Londa.ThreadSaferCounter

namespace Print

inductive PrintPc
  | resting
  | locking
  | calling
  | inside
  | unlocking
  deriving DecidableEq

/-- The threads, each at its place in its loop, and the lines printed. -/
structure Program (ι : Type*) where
  counter : Counter ι
  mtx : Option ι
  pc : ι → PrintPc
  out : List (ι × ℕ)

variable {ι : Type*}

def Program.init : Program ι := ⟨.init, none, fun _ => .resting, []⟩

/-- A writer prints `counter.increment()`, a reader `counter.get()`. -/
def opOf (writes : Bool) : Op := if writes then .increment else .get

section Step

variable [DecidableEq ι] (writer : ι → Bool)

def Program.goto (s : Program ι) (i : ι) (p : PrintPc) : Program ι :=
  { s with pc := Function.update s.pc i p }

def threadStep (s : Program ι) (i : ι) : Option (Program ι) :=
  match s.pc i with
  | .resting => some (s.goto i .locking)
  | .locking => if s.mtx = none then some { s.goto i .calling with mtx := some i } else none
  | .calling => (s.counter.call i (opOf (writer i))).map fun c =>
      { s.goto i .inside with counter := c }
  | .inside =>
      match s.counter.threadStep i with
      | none => none
      | some (c, none) => some { s with counter := c }
      | some (c, some r) => some { s.goto i .unlocking with
          counter := c
          out := s.out ++ [(i, r.getD 0)] }
  | .unlocking => some { s.goto i .resting with mtx := none }

def program : Machine (Program ι) ι := ⟨.init, threadStep writer⟩

end Step

/-- The lines of these threads one after the other, when `n` increments were made before. -/
def lines (writer : ι → Bool) : ℕ → List ι → List (ι × ℕ)
  | _, [] => []
  | n, i :: is =>
      let m := if writer i then n + 1 else n
      (i, m % uintBound) :: lines writer m is

def PrintPc.holds : PrintPc → Bool
  | .calling => true
  | .inside => true
  | .unlocking => true
  | _ => false

/-- The call of a thread in the counter, when `n` increments were printed before it. -/
def Calls (writes : Bool) (n value : ℕ) : Atomic.Status Op (Option ℕ) → Prop
  | .idle => False
  | .pending op => op = opOf writes ∧ value = n % uintBound
  | .done r => r = some value ∧ value = (if writes then n + 1 else n) % uintBound

variable {writer : ι → Bool} {s t : Program ι} {i j : ι} {n : ℕ} {is : List ι}

theorem lines_append_singleton (n : ℕ) (is : List ι) (i : ι) :
    lines writer n (is ++ [i]) = lines writer n is ++
      [(i, (if writer i then n + is.countP writer + 1 else n + is.countP writer) % uintBound)] := by
  induction is generalizing n with
  | nil => rfl
  | cons j is ih =>
      rw [List.cons_append, lines, ih, lines, List.cons_append, List.countP_cons]
      cases writer j <;> simp [Nat.add_assoc, Nat.add_comm 1]

/-- The increments among the lines. -/
def Program.written (writer : ι → Bool) (s : Program ι) : ℕ := (s.out.map Prod.fst).countP writer

structure Inv (writer : ι → Bool) (s : Program ι) : Prop where
  guarded : Guarded (fun j => (s.pc j).holds) s.mtx
  sound : s.counter.Sound
  idle : ∀ i, s.pc i ≠ .inside → s.counter.pc i = .idle
  value : (∀ i, s.pc i ≠ .inside) → s.counter.value_ = s.written writer % uintBound
  calls : ∀ i, s.pc i = .inside →
    Calls (writer i) (s.written writer) s.counter.value_ ((s.counter.pc i).status s.counter.value_)
  printed : s.out = lines writer 0 (s.out.map Prod.fst)

section Proofs

variable [DecidableEq ι]

/-- What a step can do. -/
inductive Trans (writer : ι → Bool) (s : Program ι) (i : ι) : Program ι → Prop
  | rest : s.pc i = .resting → Trans writer s i (s.goto i .locking)
  | lock : s.pc i = .locking → s.mtx = none →
      Trans writer s i { s.goto i .calling with mtx := some i }
  | call (c : Counter ι) : s.pc i = .calling → s.counter.call i (opOf (writer i)) = some c →
      Trans writer s i { s.goto i .inside with counter := c }
  | go (c : Counter ι) : s.pc i = .inside → s.counter.threadStep i = some (c, none) →
      Trans writer s i { s with counter := c }
  | print (c : Counter ι) (r : Option ℕ) : s.pc i = .inside →
      s.counter.threadStep i = some (c, some r) →
      Trans writer s i { s.goto i .unlocking with counter := c, out := s.out ++ [(i, r.getD 0)] }
  | unlock : s.pc i = .unlocking → Trans writer s i { s.goto i .resting with mtx := none }

theorem step_trans (h : threadStep writer s i = some t) : Trans writer s i t := by
  unfold threadStep at h
  cases hpc : s.pc i with
  | resting =>
      rw [hpc] at h
      cases Option.some.inj h
      exact .rest hpc
  | locking =>
      simp only [hpc, Option.ite_none_right_eq_some, Option.some.injEq] at h
      obtain ⟨hfree, rfl⟩ := h
      exact .lock hpc hfree
  | calling =>
      rw [hpc] at h
      obtain ⟨c, hc, rfl⟩ := Option.map_eq_some_iff.1 h
      exact .call c hpc hc
  | inside =>
      rw [hpc] at h
      dsimp only at h
      split at h
      · cases h
      · rename_i c hc
        cases Option.some.inj h
        exact .go c hpc hc
      · rename_i c r hc
        cases Option.some.inj h
        exact .print c r hpc hc
  | unlocking =>
      rw [hpc] at h
      cases Option.some.inj h
      exact .unlock hpc

theorem Calls.step {c c' : Counter ι} {w : Bool} (h : c.Sound)
    (ht : ThreadSaferCounter.Trans c i c' none)
    (hc : Calls w n c.value_ ((c.pc i).status c.value_)) :
    Calls w n c'.value_ ((c'.pc i).status c'.value_) := by
  have hself (p : Pc) : (c.goto i p).pc i = p := Function.update_self ..
  cases ht with
  | lockShared hpc | lockIncrement hpc | lockReset hpc | increment hpc | load hpc
  | unlockShared r hpc | unlock op r hpc =>
      rw [hpc] at hc
      simp only [hself]
      exact hc
  | read hpc =>
      rw [hpc] at hc
      obtain ⟨hop, hvalue⟩ := hc
      cases w with
      | true => cases hop
      | false =>
          simp only [hself]
          exact ⟨rfl, hvalue⟩
  | store v hpc =>
      have hv := h.fresh i v hpc
      rw [hpc] at hc
      obtain ⟨hop, hvalue⟩ := hc
      cases w with
      | false => cases hop
      | true =>
          simp only [hself]
          refine ⟨rfl, ?_⟩
          rw [hv, hvalue, Nat.mod_add_mod]
          rfl
  | clear hpc =>
      rw [hpc] at hc
      obtain ⟨hop, -⟩ := hc
      cases w <;> cases hop

omit [DecidableEq ι] in
/-- Nobody else holds `mtx`. -/
theorem Inv.outside (h : Inv writer s) (hi : (s.pc i).holds) (hj : j ≠ i) :
    s.pc j ≠ .inside := by
  intro hin
  exact hj (h.guarded.unique (by rw [hin]; rfl) hi)

/-- A step outside the counter. -/
theorem Inv.goto (h : Inv writer s) {p : PrintPc} {m : Option ι} (hpc : s.pc i ≠ .inside)
    (hp : p ≠ .inside) (hg : Guarded (fun j => ((s.goto i p).pc j).holds) m) :
    Inv writer { s.goto i p with mtx := m } := by
  have hinside (j : ι) : (s.goto i p).pc j = .inside ↔ s.pc j = .inside := by
    by_cases hj : j = i
    · subst j
      simp [Program.goto, hpc, hp]
    · simp [Program.goto, Function.update_of_ne hj]
  refine ⟨hg, h.sound, fun j hj => h.idle j ?_, fun hall => h.value fun j => ?_,
    fun j hj => h.calls j ?_, h.printed⟩
  · exact fun hin => hj ((hinside j).2 hin)
  · exact fun hin => hall j ((hinside j).2 hin)
  · exact (hinside j).1 hj

theorem Inv.step (h : Inv writer s) (ht : Trans writer s i t) : Inv writer t := by
  cases ht with
  | rest hpc =>
      refine h.goto (by rw [hpc]; decide) (by decide) ?_
      exact h.guarded.congr (update_frame PrintPc.holds (by rw [hpc]; rfl))
  | lock hpc hfree =>
      refine h.goto (by rw [hpc]; decide) (by decide) ?_
      exact (hfree ▸ h.guarded).acquire_update rfl
  | unlock hpc =>
      refine h.goto (by rw [hpc]; decide) (by decide) ?_
      exact h.guarded.release_update (by rw [hpc]; rfl) rfl
  | call c hpc hc =>
      have hheld : (s.pc i).holds := by rw [hpc]; rfl
      have hsound := h.sound.call hc
      unfold Counter.call at hc
      split_ifs at hc with hidle
      cases Option.some.inj hc
      refine ⟨h.guarded.congr (update_frame PrintPc.holds (by rw [hpc]; rfl)), hsound,
        fun j hj => ?_, fun hall => absurd (Function.update_self ..) (hall i), fun j hj => ?_,
        h.printed⟩
      · have hji : j ≠ i := by
          rintro rfl
          exact hj (Function.update_self ..)
        simp only [Counter.goto, Function.update_of_ne hji]
        exact h.idle j (h.outside hheld hji)
      · have hji : j = i := by
          by_contra hji
          simp only [Program.goto, Function.update_of_ne hji] at hj
          exact h.outside hheld hji hj
        subst j
        simp only [Counter.goto, Function.update_self]
        refine ⟨rfl, h.value fun j => ?_⟩
        by_cases hj : j = i
        · subst j
          rw [hpc]
          decide
        · exact h.outside hheld hj
  | go c hpc hc =>
      have hheld : (s.pc i).holds := by rw [hpc]; rfl
      have ht := threadStep_trans hc
      refine ⟨h.guarded, h.sound.step ht, fun j hj => ?_, fun hall => absurd hpc (hall i),
        fun j hj => ?_, h.printed⟩
      · have hji : j ≠ i := by
          rintro rfl
          exact hj hpc
        rw [ht.frame hji]
        exact h.idle j hj
      · have hji : j = i := by
          by_contra hji
          exact h.outside hheld hji hj
        subst j
        exact (h.calls i hpc).step h.sound ht
  | print c r hpc hc =>
      have hheld : (s.pc i).holds := by rw [hpc]; rfl
      have ht := threadStep_trans hc
      have hcalls := h.calls i hpc
      have hsound := h.sound.step ht
      cases ht with
      | ret r hret =>
          rw [hret] at hcalls
          obtain ⟨rfl, hvalue⟩ := hcalls
          refine ⟨h.guarded.congr (update_frame PrintPc.holds (by rw [hpc]; rfl)), hsound,
            fun j hj => ?_, fun _ => ?_, fun j hj => ?_, ?_⟩
          · by_cases hji : j = i
            · subst j
              exact Function.update_self ..
            · simp only [Counter.goto, Function.update_of_ne hji]
              exact h.idle j (h.outside hheld hji)
          · show s.counter.value_ = _
            rw [hvalue]
            simp only [Program.written, List.map_append, List.map_cons, List.map_nil,
              List.countP_append, List.countP_singleton]
            cases writer i <;> rfl
          · by_cases hji : j = i
            · subst j
              simp only [Program.goto, Function.update_self] at hj
              cases hj
            · simp only [Program.goto, Function.update_of_ne hji] at hj
              exact absurd hj (h.outside hheld hji)
          · show s.out ++ [(i, s.counter.value_)] =
              lines writer 0 ((s.out ++ [(i, s.counter.value_)]).map Prod.fst)
            rw [List.map_append, List.map_cons, List.map_nil, lines_append_singleton, ← h.printed,
              hvalue, Nat.zero_add]
            rfl

theorem inv_of_reachable (h : (program writer).Reachable s) : Inv writer s := by
  apply h.invariant (I := Inv writer)
  · exact ⟨fun _ => by simp [program, Program.init, PrintPc.holds], Counter.sound_init,
      fun _ _ => rfl, fun _ => rfl, nofun, rfl⟩
  · exact fun _ hi hst => hi.step (step_trans hst)

/-- The lines of the threads are those that the calls give when they are made one after the
other in the order of the lines. -/
theorem printed_in_call_order (h : (program writer).Reachable s) :
    s.out = lines writer 0 (s.out.map Prod.fst) := (inv_of_reachable h).printed

/-- Thread `true` writes, then thread `false` reads. -/
def writeThenRead : List Bool := List.replicate 10 true ++ List.replicate 8 false

theorem printed_in_call_order_writeThenRead : ∃ s, (program id).run writeThenRead = some s ∧
    s.out = [(true, 1), (false, 1)] ∧ s.out = lines id 0 (s.out.map Prod.fst) := by
  have hrun : ((program id).run writeThenRead).map Program.out =
      some [(true, 1), (false, 1)] := by decide +kernel
  obtain ⟨s, hs, hreach, hout⟩ := Machine.reachable_of_run_map hrun
  exact ⟨s, hs, hout, printed_in_call_order hreach⟩

/-- A thread inside the counter finds its mutex free. -/
theorem threadStep_isSome (h : Inv writer s) (hpc : s.pc i = .inside) :
    (s.counter.threadStep i).isSome := by
  have hheld : (s.pc i).holds := by rw [hpc]; rfl
  have hidle (j : ι) (hj : j ≠ i) : s.counter.pc j = .idle := h.idle j (h.outside hheld hj)
  have hcalls := h.calls i hpc
  have hfree (op : Op) (hop : s.counter.pc i = .locking op) : s.counter.mutex_.Idle := by
    constructor
    · refine h.sound.guards.owner.owner_none fun j => ?_
      by_cases hj : j = i
      · subst j
        rw [hop]
        rfl
      · rw [hidle j hj]
        rfl
    · refine Finset.eq_empty_of_forall_notMem fun j hmem => ?_
      have hshare := (h.sound.guards.sharers j).2 hmem
      by_cases hj : j = i
      · subst j
        rw [hop] at hshare
        cases hshare
      · rw [hidle j hj] at hshare
        cases hshare
  unfold Counter.threadStep
  cases hc : s.counter.pc i with
  | idle =>
      rw [hc] at hcalls
      exact hcalls.elim
  | locking op =>
      have hop := hfree op hc
      cases op with
      | get => simp [hop.1]
      | increment | reset => simp [hop]
  | unlocking op r => cases op <;> rfl
  | _ => rfl

/-- A thread can take its next step, or it waits for `mtx` and the thread that holds `mtx`
can take its next step. -/
theorem never_deadlocked (h : (program writer).Reachable s) (i : ι) :
    (threadStep writer s i).isSome ∨
      ∃ j, s.pc i = .locking ∧ s.mtx = some j ∧ (threadStep writer s j).isSome := by
  have hinv := inv_of_reachable h
  have hgo (j : ι) (hj : (s.pc j).holds) : (threadStep writer s j).isSome := by
    unfold threadStep
    cases hpc : s.pc j with
    | resting | locking => simp [hpc, PrintPc.holds] at hj
    | calling =>
        have hidle := hinv.idle j (by rw [hpc]; decide)
        simp [Counter.call, hidle]
    | inside =>
        obtain ⟨⟨c, r⟩, hc⟩ := Option.isSome_iff_exists.1 (threadStep_isSome hinv hpc)
        rw [hc]
        cases r <;> rfl
    | unlocking => rfl
  cases hpc : s.pc i with
  | resting =>
      left
      simp [threadStep, hpc]
  | locking =>
      cases hm : s.mtx with
      | none =>
          left
          simp [threadStep, hpc, hm]
      | some j => exact Or.inr ⟨j, rfl, rfl, hgo j ((hinv.guarded j).2 hm)⟩
  | calling | inside | unlocking => exact Or.inl (hgo i (by rw [hpc]; rfl))

/-- Thread `false` waits for `mtx` while thread `true` is inside the counter. -/
theorem never_deadlocked_waiting : ∃ s,
    (program id).run [false, true, true, true, true] = some s ∧ s.pc false = .locking ∧
      s.mtx = some true ∧ ((threadStep id s false).isSome ∨
        ∃ j, s.pc false = .locking ∧ s.mtx = some j ∧ (threadStep id s j).isSome) := by
  have hrun : ((program id).run [false, true, true, true, true]).map
      (fun s => (s.pc false, s.mtx)) = some (.locking, some true) := by decide +kernel
  obtain ⟨s, hs, hreach, hview⟩ := Machine.reachable_of_run_map hrun
  obtain ⟨hpc, hmtx⟩ := Prod.mk.inj hview
  exact ⟨s, hs, hpc, hmtx, never_deadlocked hreach false⟩

end Proofs
end Print
end Londa.ThreadSaferCounter
