import Mathlib.Data.Fintype.BigOperators
import Londa.Counting
import Londa.Machine
import Londa.Monitor

/-!
# Two timers on a strand

Model of the class `Timer` in `code/boost_doc/DS/time.cpp` with any number of threads in `run`.
Both handlers are wrapped in one strand: a handler starts in a free thread, and only while no
other handler of the strand runs. It sets its timer again before it returns, so that the timer
can expire while the handler still runs. `run` is left when no wait is pending and no handler
is ready or running. Both are guarantees that Boost.Asio documents, the exclusion of the strand
and the end of `run`, and are assumed here. Deadlines, thread numbers in the output and the
object `work`, which ends with the handler it is made in, are left out. The process is taken to
outlive the detached thread: `main` ends after a `getchar`.
-/

namespace Londa.Timer

inductive Handler
  | print1
  | print2
  deriving DecidableEq

instance : Fintype Handler := ⟨{.print1, .print2}, fun h => by cases h <;> simp⟩

/-- The wait on a timer: not over yet, over with the handler ready, or none. -/
inductive Wait
  | pending
  | ready
  | none
  deriving DecidableEq

inductive Line
  | count (h : Handler) (n : ℕ)
  | error (h : Handler)
  deriving DecidableEq

inductive Pc
  | idle
  | testing (h : Handler)
  | printing (h : Handler)
  | loading (h : Handler)
  | storing (h : Handler) (n : ℕ)
  | setting (h : Handler)
  | failing (h : Handler)
  | returning
  | left
  deriving DecidableEq

structure State (ι : Type*) where
  count : ℕ
  wait : Handler → Wait
  strand : Option ι
  pc : ι → Pc
  out : List Line

inductive Act (ι : Type*)
  | expire (h : Handler)
  | start (i : ι) (h : Handler)
  | run (i : ι)
  | leave (i : ι)

variable {ι : Type*} [DecidableEq ι]

def init (ι : Type*) : State ι := ⟨0, fun _ => .pending, none, fun _ => .idle, []⟩

def State.goto (s : State ι) (i : ι) (p : Pc) : State ι :=
  { s with pc := Function.update s.pc i p }

/-- There is no work left that would keep `run` going. -/
def State.finished (s : State ι) : Prop := (∀ h, s.wait h = .none) ∧ s.strand = none

instance (s : State ι) : Decidable s.finished := inferInstanceAs (Decidable (_ ∧ _))

/-- The next step of the handler, `Print1` or `Print2`, that runs in thread `i`. -/
def handlerStep (s : State ι) (i : ι) : Option (State ι) :=
  match s.pc i with
  | .testing h => some (s.goto i (if s.count < 5 then .printing h else .failing h))
  | .printing h => some { s.goto i (.loading h) with out := s.out ++ [.count h s.count] }
  | .loading h => some (s.goto i (.storing h s.count))
  | .storing h n => some { s.goto i (.setting h) with count := n + 1 }
  | .setting h => some { s.goto i .returning with wait := Function.update s.wait h .pending }
  | .failing h => some { s.goto i .returning with out := s.out ++ [.error h] }
  | .returning => some { s.goto i .idle with strand := none }
  | .idle | .left => none

def step (s : State ι) : Act ι → Option (State ι)
  | .expire h =>
      if s.wait h = .pending then some { s with wait := Function.update s.wait h .ready }
      else none
  | .start i h =>
      if s.pc i = .idle ∧ s.strand = none ∧ s.wait h = .ready then
        some { s.goto i (.testing h) with
          wait := Function.update s.wait h .none
          strand := some i }
      else none
  | .run i => handlerStep s i
  | .leave i => if s.pc i = .idle ∧ s.finished then some (s.goto i .left) else none

def machine (ι : Type*) [DecidableEq ι] : Machine (State ι) (Act ι) := ⟨init ι, step⟩

/-- No timer expires any more and no thread can go on. -/
def Quiet (s : State ι) : Prop := ∀ a, step s a = none

/-- The number that a line shows. -/
def Line.shown : Line → Option ℕ
  | .count _ n => some n
  | .error _ => none

def Line.failed : Line → Option Handler
  | .count _ _ => none
  | .error h => some h

/-- The handlers that have reported an error, oldest first. -/
def errors (out : List Line) : List Handler := out.filterMap Line.failed

/-- The thread runs a handler. -/
def Pc.inside : Pc → Bool
  | .idle | .left => false
  | .testing _ | .printing _ | .loading _ | .storing _ _ | .setting _ | .failing _
  | .returning => true

/-- The handler whose timer the thread has neither set again nor given up. -/
def Pc.handler : Pc → Option Handler
  | .testing h | .printing h | .loading h | .storing h _ | .setting h | .failing h => some h
  | .idle | .returning | .left => none

/-- One while the count is printed and not increased yet. -/
def Pc.ahead : Pc → ℕ
  | .loading _ | .storing _ _ => 1
  | .idle | .testing _ | .printing _ | .setting _ | .failing _ | .returning | .left => 0

def State.ahead (s : State ι) : ℕ :=
  match s.strand with
  | none => 0
  | some i => (s.pc i).ahead

/-- What a thread knows about the count. -/
def Knows (count : ℕ) : Pc → Prop
  | .printing _ | .loading _ => count < 5
  | .storing _ n => count < 5 ∧ n = count
  | .failing _ => 5 ≤ count
  | .idle | .testing _ | .setting _ | .returning | .left => True

structure Inv (s : State ι) : Prop where
  strand : Guarded (fun i => (s.pc i).inside) s.strand
  knows : ∀ i, Knows s.count (s.pc i)
  bound : s.count ≤ 5
  lines : s.out.map Line.shown =
    (List.range (s.count + s.ahead)).map some ++ (errors s.out).map fun _ => none
  early : s.count < 5 → errors s.out = []
  nodup : (errors s.out).Nodup
  ended : ∀ h ∈ errors s.out, s.wait h = .none
  served : ∀ i h, (s.pc i).handler = some h → s.wait h = .none ∧ h ∉ errors s.out
  kept : ∀ h, s.wait h = .none → h ∉ errors s.out → ∃ i, (s.pc i).handler = some h
  left : ∀ i, s.pc i = .left → s.finished

/-- What a step can do. -/
inductive Trans (s : State ι) : State ι → Prop
  | expire (h : Handler) : s.wait h = .pending →
      Trans s { s with wait := Function.update s.wait h .ready }
  | start (i : ι) (h : Handler) : s.pc i = .idle → s.strand = none → s.wait h = .ready →
      Trans s { s.goto i (.testing h) with
        wait := Function.update s.wait h .none
        strand := some i }
  | below (i : ι) (h : Handler) : s.pc i = .testing h → s.count < 5 →
      Trans s (s.goto i (.printing h))
  | reached (i : ι) (h : Handler) : s.pc i = .testing h → 5 ≤ s.count →
      Trans s (s.goto i (.failing h))
  | print (i : ι) (h : Handler) : s.pc i = .printing h →
      Trans s { s.goto i (.loading h) with out := s.out ++ [.count h s.count] }
  | load (i : ι) (h : Handler) : s.pc i = .loading h → Trans s (s.goto i (.storing h s.count))
  | store (i : ι) (h : Handler) (n : ℕ) : s.pc i = .storing h n →
      Trans s { s.goto i (.setting h) with count := n + 1 }
  | set (i : ι) (h : Handler) : s.pc i = .setting h →
      Trans s { s.goto i .returning with wait := Function.update s.wait h .pending }
  | fail (i : ι) (h : Handler) : s.pc i = .failing h →
      Trans s { s.goto i .returning with out := s.out ++ [.error h] }
  | back (i : ι) : s.pc i = .returning → Trans s { s.goto i .idle with strand := none }
  | leave (i : ι) : s.pc i = .idle → s.finished → Trans s (s.goto i .left)

variable {s t : State ι} {i j : ι} {h : Handler}

theorem handlerStep_trans (hst : handlerStep s i = some t) : Trans s t := by
  unfold handlerStep at hst
  split at hst
  · rename_i h hpc
    cases hst
    by_cases hcount : s.count < 5
    · rw [if_pos hcount]
      exact .below i h hpc hcount
    · rw [if_neg hcount]
      exact .reached i h hpc (not_lt.1 hcount)
  · cases hst
    exact .print i _ ‹_›
  · cases hst
    exact .load i _ ‹_›
  · cases hst
    exact .store i _ _ ‹_›
  · cases hst
    exact .set i _ ‹_›
  · cases hst
    exact .fail i _ ‹_›
  · cases hst
    exact .back i ‹_›
  · cases hst
  · cases hst

theorem step_trans {a : Act ι} (hst : step s a = some t) : Trans s t := by
  cases a with
  | expire h =>
      obtain ⟨hwait, heq⟩ := (Option.ite_none_right_eq_some ..).1 hst
      cases heq
      exact .expire h hwait
  | start i h =>
      obtain ⟨⟨hpc, hstrand, hwait⟩, heq⟩ := (Option.ite_none_right_eq_some ..).1 hst
      cases heq
      exact .start i h hpc hstrand hwait
  | run i => exact handlerStep_trans hst
  | leave i =>
      obtain ⟨⟨hpc, hfinished⟩, heq⟩ := (Option.ite_none_right_eq_some ..).1 hst
      cases heq
      exact .leave i hpc hfinished

theorem knows_of_outside {count : ℕ} {p : Pc} (h : p.inside = false) : Knows count p := by
  cases p with
  | idle | left => trivial
  | testing | printing | loading | storing | setting | failing | returning => cases h

/-- A thread outside the handlers has no handler. -/
theorem inside_of_handler {p : Pc} (hp : p.handler = some h) : p.inside = true := by
  cases p with
  | idle | left => cases hp
  | testing | printing | loading | storing | setting | failing | returning => rfl

namespace Inv

omit [DecidableEq ι] in
/-- While thread `i` runs a handler the other threads run none. -/
theorem outside (hi : Inv s) (hin : (s.pc i).inside = true) (hj : j ≠ i) :
    (s.pc j).inside = false := by
  by_contra hne
  exact hj (hi.strand.unique (Bool.not_eq_false _ ▸ hne) hin)

omit [DecidableEq ι] in
theorem handler_of_free (hi : Inv s) (hfree : s.strand = none) (j : ι) :
    (s.pc j).handler ≠ some h := by
  intro hj
  have hg := hi.strand
  rw [hfree] at hg
  exact hg.free (inside_of_handler hj)

omit [DecidableEq ι] in
theorem handler_of_ne (hi : Inv s) (hin : (s.pc i).inside = true) (hj : j ≠ i) :
    (s.pc j).handler ≠ some h := by
  intro hh
  have hout := hi.outside hin hj
  rw [inside_of_handler hh] at hout
  cases hout

theorem ahead_goto (hi : Inv s) (hin : (s.pc i).inside = true) (p : Pc) :
    (s.goto i p).ahead = p.ahead := by
  unfold State.ahead
  rw [show (s.goto i p).strand = some i from hi.strand.owner_eq hin]
  dsimp only [State.goto]
  rw [Function.update_self]

omit [DecidableEq ι] in
theorem ahead_eq (hi : Inv s) (hin : (s.pc i).inside = true) : s.ahead = (s.pc i).ahead := by
  unfold State.ahead
  rw [hi.strand.owner_eq hin]

theorem step_strand (hi : Inv s) (ht : Trans s t) :
    Guarded (fun i => (t.pc i).inside) t.strand := by
  cases ht with
  | expire => exact hi.strand
  | start i h hpc hfree =>
      have hg := hi.strand
      rw [hfree] at hg
      exact hg.acquire_update rfl
  | below i h hpc | reached i h hpc | print i h hpc | load i h hpc | store i h n hpc
  | set i h hpc | fail i h hpc | leave i hpc =>
      exact hi.strand.congr (update_frame Pc.inside (by rw [hpc]; rfl))
  | back i hpc => exact hi.strand.release_update (by rw [hpc]; rfl) rfl

theorem step_knows (hi : Inv s) (ht : Trans s t) (j : ι) : Knows t.count (t.pc j) := by
  have hmove : ∀ {i p}, Knows s.count p → Knows s.count (Function.update s.pc i p j) :=
    fun {i p} hp => (Function.forall_update_iff s.pc fun _ q => Knows s.count q).2
      ⟨hp, fun j _ => hi.knows j⟩ j
  cases ht with
  | expire => exact hi.knows j
  | start | set | fail | back | leave => exact hmove trivial
  | below i h hpc hcount => exact hmove hcount
  | reached i h hpc hcount => exact hmove hcount
  | print i h hpc =>
      have hcount := hi.knows i
      rw [hpc] at hcount
      exact hmove hcount
  | load i h hpc =>
      have hcount := hi.knows i
      rw [hpc] at hcount
      exact hmove ⟨hcount, rfl⟩
  | store i h n hpc =>
      by_cases hj : j = i
      · rw [hj]
        dsimp only [State.goto]
        rw [Function.update_self]
        trivial
      · dsimp only [State.goto]
        rw [Function.update_of_ne hj]
        exact knows_of_outside (hi.outside (by rw [hpc]; rfl) hj)

theorem step_bound (hi : Inv s) (ht : Trans s t) : t.count ≤ 5 := by
  cases ht with
  | expire | start | below | reached | print | load | set | fail | back | leave => exact hi.bound
  | store i h n hpc =>
      have hknows := hi.knows i
      rw [hpc] at hknows
      obtain ⟨hcount, rfl⟩ := hknows
      exact hcount

theorem errors_count (out : List Line) (h : Handler) (n : ℕ) :
    errors (out ++ [.count h n]) = errors out := by
  simp [errors, Line.failed]

theorem errors_error (out : List Line) (h : Handler) :
    errors (out ++ [.error h]) = errors out ++ [h] := by
  simp [errors, Line.failed]

theorem step_lines (hi : Inv s) (ht : Trans s t) : t.out.map Line.shown =
    (List.range (t.count + t.ahead)).map some ++ (errors t.out).map fun _ => none := by
  have hlines := hi.lines
  cases ht with
  | expire => exact hlines
  | start i h hpc hfree =>
      have hzero : s.ahead = 0 := by
        unfold State.ahead
        rw [hfree]
      rw [hzero] at hlines
      simpa [State.ahead, State.goto, Pc.ahead] using hlines
  | below i h hpc | reached i h hpc | load i h hpc =>
      have hin : (s.pc i).inside = true := by rw [hpc]; rfl
      rw [hi.ahead_goto hin]
      rw [hi.ahead_eq hin, hpc] at hlines
      exact hlines
  | print i h hpc =>
      have hin : (s.pc i).inside = true := by rw [hpc]; rfl
      have hcount := hi.knows i
      rw [hpc] at hcount
      have hahead : State.ahead { s.goto i (.loading h) with out := s.out ++ [.count h s.count] } =
          1 := hi.ahead_goto hin (.loading h)
      rw [hi.ahead_eq hin, hpc, hi.early hcount] at hlines
      rw [hahead]
      dsimp only [State.goto]
      rw [errors_count, hi.early hcount, List.map_append, hlines, List.range_succ]
      simp [Pc.ahead, Line.shown]
  | store i h n hpc =>
      have hin : (s.pc i).inside = true := by rw [hpc]; rfl
      have hknows := hi.knows i
      rw [hpc] at hknows
      obtain ⟨-, rfl⟩ := hknows
      have hahead : State.ahead { s.goto i (.setting h) with count := s.count + 1 } = 0 :=
        hi.ahead_goto hin (.setting h)
      rw [hi.ahead_eq hin, hpc] at hlines
      rw [hahead]
      exact hlines
  | set i h hpc =>
      have hin : (s.pc i).inside = true := by rw [hpc]; rfl
      have hahead : State.ahead
          { s.goto i .returning with wait := Function.update s.wait h .pending } = 0 :=
        hi.ahead_goto hin .returning
      rw [hi.ahead_eq hin, hpc] at hlines
      rw [hahead]
      exact hlines
  | fail i h hpc =>
      have hin : (s.pc i).inside = true := by rw [hpc]; rfl
      have hahead : State.ahead { s.goto i .returning with out := s.out ++ [.error h] } = 0 :=
        hi.ahead_goto hin .returning
      rw [hi.ahead_eq hin, hpc] at hlines
      rw [hahead]
      dsimp only [State.goto]
      rw [errors_error, List.map_append, hlines, List.map_append, ← List.append_assoc]
      rfl
  | back i hpc =>
      have hin : (s.pc i).inside = true := by rw [hpc]; rfl
      rw [hi.ahead_eq hin, hpc] at hlines
      exact hlines
  | leave i hpc hfinished =>
      have hahead : (s.goto i .left).ahead = s.ahead := by
        unfold State.ahead
        rw [show (s.goto i .left).strand = none from hfinished.2, hfinished.2]
      rw [hahead]
      exact hlines

theorem step_early (hi : Inv s) (ht : Trans s t) (hcount : t.count < 5) : errors t.out = [] := by
  cases ht with
  | expire | start | below | reached | load | set | back | leave => exact hi.early hcount
  | print i h hpc =>
      dsimp only [State.goto]
      rw [errors_count]
      exact hi.early hcount
  | store i h n hpc =>
      have hknows := hi.knows i
      rw [hpc] at hknows
      exact hi.early hknows.1
  | fail i h hpc =>
      have hknows := hi.knows i
      rw [hpc] at hknows
      exact absurd hcount (not_lt.2 hknows)

theorem step_nodup (hi : Inv s) (ht : Trans s t) : (errors t.out).Nodup := by
  cases ht with
  | expire | start | below | reached | load | store | set | back | leave => exact hi.nodup
  | print i h hpc =>
      dsimp only [State.goto]
      rw [errors_count]
      exact hi.nodup
  | fail i h hpc =>
      have hnew := (hi.served i h (by rw [hpc]; rfl)).2
      dsimp only [State.goto]
      rw [errors_error]
      exact List.nodup_append'.2 ⟨hi.nodup, List.nodup_singleton h,
        List.disjoint_singleton.2 hnew⟩

theorem step_ended (hi : Inv s) (ht : Trans s t) : ∀ h ∈ errors t.out, t.wait h = .none := by
  -- A wait is only changed for a handler that has not reported an error.
  have hchange : ∀ {h w}, h ∉ errors s.out → ∀ h' ∈ errors s.out,
      Function.update s.wait h w h' = .none := by
    intro h w hnew h' hh'
    have hne : h' ≠ h := by
      rintro rfl
      exact hnew hh'
    rw [Function.update_of_ne hne]
    exact hi.ended h' hh'
  have hopen : ∀ {h}, s.wait h ≠ .none → h ∉ errors s.out := fun hw hh => hw (hi.ended _ hh)
  cases ht with
  | expire h hwait => exact hchange (hopen (by rw [hwait]; decide))
  | start i h hpc hfree hwait => exact hchange (hopen (by rw [hwait]; decide))
  | below | reached | load | store | back | leave => exact hi.ended
  | print i h hpc =>
      dsimp only [State.goto]
      rw [errors_count]
      exact hi.ended
  | set i h hpc => exact hchange (hi.served i h (by rw [hpc]; rfl)).2
  | fail i h hpc =>
      dsimp only [State.goto]
      rw [errors_error, List.forall_mem_append, List.forall_mem_singleton]
      exact ⟨hi.ended, (hi.served i h (by rw [hpc]; rfl)).1⟩

theorem step_served (hi : Inv s) (ht : Trans s t) {j : ι} {g : Handler}
    (hj : (t.pc j).handler = some g) : t.wait g = .none ∧ g ∉ errors t.out := by
  -- A thread that has just finished with its handler is followed by no other thread.
  have hnone : ∀ {i p}, (s.pc i).inside = true → p.handler = none →
      (Function.update s.pc i p j).handler ≠ some g := by
    intro i p hin hp
    by_cases hji : j = i
    · rw [hji, Function.update_self, hp]
      nofun
    · rw [Function.update_of_ne hji]
      exact hi.handler_of_ne hin hji
  cases ht with
  | expire h hwait =>
      obtain ⟨hw, hnew⟩ := hi.served j g hj
      refine ⟨?_, hnew⟩
      have hne : g ≠ h := by
        rintro rfl
        rw [hwait] at hw
        cases hw
      exact (Function.update_of_ne hne ..).trans hw
  | start i h hpc hfree hwait =>
      by_cases hji : j = i
      · dsimp only [State.goto] at hj
        rw [hji, Function.update_self] at hj
        cases hj
        refine ⟨Function.update_self .., fun hh => ?_⟩
        rw [hi.ended g hh] at hwait
        cases hwait
      · dsimp only [State.goto] at hj
        rw [Function.update_of_ne hji] at hj
        exact absurd hj (hi.handler_of_free hfree j)
  | below i h hpc | reached i h hpc | load i h hpc | store i h n hpc | leave i hpc =>
      dsimp only [State.goto] at hj
      rw [update_frame Pc.handler (by rw [hpc]; rfl)] at hj
      exact hi.served j g hj
  | print i h hpc =>
      dsimp only [State.goto] at hj
      rw [update_frame Pc.handler (by rw [hpc]; rfl)] at hj
      dsimp only [State.goto]
      rw [errors_count]
      exact hi.served j g hj
  | set i h hpc | fail i h hpc | back i hpc =>
      exact absurd hj (hnone (by rw [hpc]; rfl) rfl)

theorem step_kept (hi : Inv s) (ht : Trans s t) {g : Handler} (hw : t.wait g = .none)
    (hg : g ∉ errors t.out) : ∃ j, (t.pc j).handler = some g := by
  have hmove : ∀ {i p}, p.handler = (s.pc i).handler → (∃ j, (s.pc j).handler = some g) →
      ∃ j, (Function.update s.pc i p j).handler = some g := by
    rintro i p hp ⟨j, hj⟩
    exact ⟨j, (update_frame Pc.handler hp j).trans hj⟩
  -- A thread inside its handler is the only one that has one.
  have hself : ∀ {i h}, s.pc i = .setting h ∨ s.pc i = .failing h → s.wait g = .none →
      g ∉ errors s.out → g = h := by
    intro i h hpc hw hg
    obtain ⟨j, hj⟩ := hi.kept g hw hg
    have hin : (s.pc i).inside = true := by rcases hpc with hpc | hpc <;> rw [hpc] <;> rfl
    by_cases hji : j = i
    · rw [hji] at hj
      rcases hpc with hpc | hpc
      · rw [hpc] at hj
        exact (Option.some.inj hj).symm
      · rw [hpc] at hj
        exact (Option.some.inj hj).symm
    · exact absurd hj (hi.handler_of_ne hin hji)
  cases ht with
  | expire h hwait =>
      by_cases hgh : g = h
      · rw [hgh] at hw
        simp at hw
      · dsimp only [State.goto] at hw
        rw [Function.update_of_ne hgh] at hw
        exact hi.kept g hw hg
  | start i h hpc hfree hwait =>
      by_cases hgh : g = h
      · refine ⟨i, ?_⟩
        dsimp only [State.goto]
        rw [Function.update_self, hgh]
        rfl
      · dsimp only [State.goto] at hw
        rw [Function.update_of_ne hgh] at hw
        obtain ⟨j, hj⟩ := hi.kept g hw hg
        exact absurd hj (hi.handler_of_free hfree j)
  | below i h hpc | reached i h hpc | load i h hpc | store i h n hpc | back i hpc | leave i hpc =>
      exact hmove (by rw [hpc]; rfl) (hi.kept g hw hg)
  | print i h hpc =>
      dsimp only [State.goto] at hg
      rw [errors_count] at hg
      exact hmove (by rw [hpc]; rfl) (hi.kept g hw hg)
  | set i h hpc =>
      by_cases hgh : g = h
      · rw [hgh] at hw
        simp at hw
      · dsimp only [State.goto] at hw
        rw [Function.update_of_ne hgh] at hw
        exact absurd (hself (.inl hpc) hw hg) hgh
  | fail i h hpc =>
      dsimp only [State.goto] at hg
      rw [errors_error, List.mem_append, not_or, List.mem_singleton] at hg
      exact absurd (hself (.inr hpc) hw hg.1) hg.2

/-- Once a thread has left, nothing happens but that others leave. -/
theorem step_left (hi : Inv s) (ht : Trans s t) {j : ι} (hj : t.pc j = .left) : t.finished := by
  have hbefore : ∀ {i p}, Function.update s.pc i p j = .left → p ≠ .left → s.finished := by
    intro i p hleft hp
    by_cases hji : j = i
    · rw [hji, Function.update_self] at hleft
      exact absurd hleft hp
    · rw [Function.update_of_ne hji] at hleft
      exact hi.left j hleft
  have hinside : ∀ {i}, (s.pc i).inside = true → ¬ s.finished := by
    intro i hin hfinished
    have howner := hi.strand.owner_eq hin
    rw [hfinished.2] at howner
    cases howner
  cases ht with
  | expire h hwait =>
      have hnone := (hi.left j hj).1 h
      rw [hwait] at hnone
      cases hnone
  | start i h hpc hfree hwait =>
      have hnone := (hbefore hj nofun).1 h
      rw [hwait] at hnone
      cases hnone
  | below i h hpc | reached i h hpc | print i h hpc | load i h hpc | store i h n hpc
  | set i h hpc | fail i h hpc | back i hpc =>
      exact absurd (hbefore hj nofun) (hinside (by rw [hpc]; rfl))
  | leave i hpc hfinished => exact hfinished

theorem step (hi : Inv s) (ht : Trans s t) : Inv t where
  strand := hi.step_strand ht
  knows := hi.step_knows ht
  bound := hi.step_bound ht
  lines := hi.step_lines ht
  early := hi.step_early ht
  nodup := hi.step_nodup ht
  ended := hi.step_ended ht
  served _ _ := hi.step_served ht
  kept _ := hi.step_kept ht
  left _ := hi.step_left ht

omit [DecidableEq ι] in
theorem initial : Inv (init ι) where
  strand _ := iff_of_false nofun nofun
  knows _ := trivial
  bound := Nat.zero_le _
  lines := rfl
  early _ := rfl
  nodup := List.nodup_nil
  ended _ hh := by cases hh
  served _ _ hh := by cases hh
  kept _ hw := by cases hw
  left _ hh := by cases hh

end Inv

theorem inv_of_reachable (h : (machine ι).Reachable s) : Inv s :=
  h.invariant Inv.initial (fun _ hi hst => hi.step (step_trans hst))

/-- How many steps are left before the wait ends and its handler starts, with those of a call
of the handler that fails. -/
def Wait.weight : Wait → ℕ
  | .pending => 8
  | .ready => 7
  | .none => 0

def Pc.weight : Pc → ℕ
  | .setting _ => 11
  | .testing _ => 7
  | .printing _ => 6
  | .loading _ => 5
  | .storing _ _ => 4
  | .failing _ => 3
  | .returning => 2
  | .idle => 1
  | .left => 0

section Run

variable [Fintype ι]

def rank (s : State ι) : ℕ :=
  8 * (5 - s.count) + ∑ h, (s.wait h).weight + ∑ i, (s.pc i).weight

theorem sum_pc (s : State ι) (i : ι) (p : Pc) :
    ∑ j, (Function.update s.pc i p j).weight + (s.pc i).weight =
      ∑ j, (s.pc j).weight + p.weight :=
  sum_update_add Pc.weight (Finset.mem_univ i)

omit [DecidableEq ι] [Fintype ι] in
theorem sum_wait (s : State ι) (h : Handler) (w : Wait) :
    ∑ g, (Function.update s.wait h w g).weight + (s.wait h).weight =
      ∑ g, (s.wait g).weight + w.weight :=
  sum_update_add Wait.weight (Finset.mem_univ h)

theorem rank_decreases (hi : Inv s) (ht : Trans s t) : rank t < rank s := by
  unfold rank
  cases ht with
  | expire h hwait =>
      have hw := sum_wait s h .ready
      rw [hwait] at hw
      change _ + 8 = _ + 7 at hw
      dsimp only
      omega
  | start i h hpc hfree hwait =>
      have hp := sum_pc s i (.testing h)
      have hw := sum_wait s h .none
      rw [hpc] at hp
      rw [hwait] at hw
      change _ + 1 = _ + 7 at hp
      change _ + 7 = _ + 0 at hw
      dsimp only [State.goto]
      omega
  | below i h hpc =>
      have hp := sum_pc s i (.printing h)
      rw [hpc] at hp
      change _ + 7 = _ + 6 at hp
      dsimp only [State.goto]
      omega
  | reached i h hpc =>
      have hp := sum_pc s i (.failing h)
      rw [hpc] at hp
      change _ + 7 = _ + 3 at hp
      dsimp only [State.goto]
      omega
  | print i h hpc =>
      have hp := sum_pc s i (.loading h)
      rw [hpc] at hp
      change _ + 6 = _ + 5 at hp
      dsimp only [State.goto]
      omega
  | load i h hpc =>
      have hp := sum_pc s i (.storing h s.count)
      rw [hpc] at hp
      change _ + 5 = _ + 4 at hp
      dsimp only [State.goto]
      omega
  | store i h n hpc =>
      have hp := sum_pc s i (.setting h)
      have hknows := hi.knows i
      rw [hpc] at hp hknows
      obtain ⟨hcount, rfl⟩ := hknows
      change _ + 4 = _ + 11 at hp
      dsimp only [State.goto]
      omega
  | set i h hpc =>
      have hp := sum_pc s i .returning
      have hw := sum_wait s h .pending
      rw [hpc] at hp
      rw [(hi.served i h (by rw [hpc]; rfl)).1] at hw
      change _ + 11 = _ + 2 at hp
      change _ + 0 = _ + 8 at hw
      dsimp only [State.goto]
      omega
  | fail i h hpc =>
      have hp := sum_pc s i .returning
      rw [hpc] at hp
      change _ + 3 = _ + 2 at hp
      dsimp only [State.goto]
      omega
  | back i hpc =>
      have hp := sum_pc s i .idle
      rw [hpc] at hp
      change _ + 2 = _ + 1 at hp
      dsimp only [State.goto]
      omega
  | leave i hpc =>
      have hp := sum_pc s i .left
      rw [hpc] at hp
      change _ + 1 = _ + 0 at hp
      dsimp only [State.goto]
      omega

theorem length_le {as : List (Act ι)} (h : (machine ι).run as = some s) :
    as.length ≤ 56 + Fintype.card ι := by
  have hstart : rank (init ι) = 56 + Fintype.card ι := by
    have hwait : ∑ h : Handler, ((init ι).wait h).weight = 16 := rfl
    unfold rank
    rw [hwait]
    simp [init, Pc.weight]
  have hlen := Machine.Reachable.length_add_le rank .init
    (fun hr hst => rank_decreases (inv_of_reachable hr) (step_trans hst)) h
  rw [show (machine ι).init = init ι from rfl, hstart] at hlen
  omega

end Run

theorem handlerStep_isSome (hin : (s.pc i).inside = true) : ∃ t, handlerStep s i = some t := by
  unfold handlerStep
  cases hpc : s.pc i with
  | idle | left =>
      rw [hpc] at hin
      cases hin
  | testing | printing | loading | storing | setting | failing | returning => exact ⟨_, rfl⟩

/-- When nothing can go on, both timers have been given up and all threads have left. -/
theorem finished_of_quiet [Nonempty ι] (hi : Inv s) (hq : Quiet s) :
    s.finished ∧ ∀ i, s.pc i = .left := by
  have houtside : ∀ i, (s.pc i).inside = false := by
    intro i
    by_contra hin
    obtain ⟨t, ht⟩ := handlerStep_isSome (Bool.not_eq_false _ ▸ hin)
    have hnone := hq (.run i)
    rw [step, ht] at hnone
    cases hnone
  have hfree : s.strand = none := hi.strand.owner_none houtside
  have hcases : ∀ i, s.pc i = .idle ∨ s.pc i = .left := by
    intro i
    have hout := houtside i
    cases hpc : s.pc i with
    | idle => exact .inl rfl
    | left => exact .inr rfl
    | testing | printing | loading | storing | setting | failing | returning =>
        rw [hpc] at hout
        cases hout
  have hwait : ∀ h, s.wait h = .none := by
    intro h
    cases hw : s.wait h with
    | none => rfl
    | pending =>
        have hnone := hq (.expire h)
        rw [step, if_pos hw] at hnone
        cases hnone
    | ready =>
        obtain ⟨i⟩ := ‹Nonempty ι›
        rcases hcases i with hpc | hpc
        · have hnone := hq (.start i h)
          rw [step, if_pos ⟨hpc, hfree, hw⟩] at hnone
          cases hnone
        · exact hw.symm.trans ((hi.left i hpc).1 h)
  refine ⟨⟨hwait, hfree⟩, fun i => (hcases i).resolve_left (fun hpc => ?_)⟩
  have hnone := hq (.leave i)
  rw [step, if_pos ⟨hpc, hwait, hfree⟩] at hnone
  cases hnone

theorem card_handler : Fintype.card Handler = 2 := rfl

omit [DecidableEq ι] in
/-- The lines so far: the numbers in order, and an error for each timer that is given up. -/
theorem Inv.shown (hi : Inv s) :
    s.out.map Line.shown <+: (List.range 5).map some ++ List.replicate 2 none := by
  have hlines := hi.lines
  by_cases hcount : s.count < 5
  · rw [hi.early hcount, List.map_nil, List.append_nil] at hlines
    have hahead : s.ahead ≤ 1 := by
      unfold State.ahead
      split
      · exact Nat.zero_le _
      · unfold Pc.ahead
        split <;> decide
    rw [hlines]
    refine List.IsPrefix.trans (List.IsPrefix.map some ?_) (List.prefix_append _ _)
    obtain ⟨m, hm⟩ := Nat.exists_eq_add_of_le (show s.count + s.ahead ≤ 5 by omega)
    generalize s.count + s.ahead = k at hm ⊢
    rw [hm, List.range_add]
    exact List.prefix_append _ _
  · have hfive : s.count = 5 := le_antisymm hi.bound (not_lt.1 hcount)
    have hahead : s.ahead = 0 := by
      unfold State.ahead
      split
      · rfl
      · rename_i i hstrand
        have hknows := hi.knows i
        cases hpc : s.pc i with
        | loading h =>
            rw [hpc] at hknows
            exact absurd hknows hcount
        | storing h n =>
            rw [hpc] at hknows
            exact absurd hknows.1 hcount
        | idle | testing | printing | setting | failing | returning | left => rfl
    have hlen : (errors s.out).length ≤ 2 := card_handler ▸ hi.nodup.length_le_card
    rw [hlines, hfive, hahead, List.map_const']
    refine (List.prefix_append_right_inj _).2 ?_
    rw [List.prefix_replicate_iff, List.length_replicate]
    exact ⟨hlen, rfl⟩

omit [DecidableEq ι] in
theorem Inv.shown_of_errors (hi : Inv s) (hall : ∀ h, h ∈ errors s.out) :
    s.out.map Line.shown = (List.range 5).map some ++ List.replicate 2 none := by
  have hlen : 2 ≤ (errors s.out).length := by
    have hcard := Finset.card_le_card (fun h _ => List.mem_toFinset.2 (hall h) :
      (Finset.univ : Finset Handler) ⊆ (errors s.out).toFinset)
    exact hcard.trans (List.toFinset_card_le _)
  have hfive : s.count = 5 := by
    refine le_antisymm hi.bound (not_lt.1 fun hcount => ?_)
    rw [hi.early hcount] at hlen
    cases hlen
  refine hi.shown.eq_of_length_le ?_
  rw [hi.lines, hfive]
  simp only [List.length_append, List.length_map, List.length_range, List.length_replicate]
  omega

/-- However the threads interleave, no run is longer than a fixed bound; the numbers are printed
in order and then the errors, and a run that cannot be continued has printed all five numbers
and one error for each timer, and every thread has left. -/
theorem stops_after_five [Fintype ι] [Nonempty ι] :
    (∀ as s, (machine ι).run as = some s → as.length ≤ 56 + Fintype.card ι) ∧
      ∀ s, (machine ι).Reachable s →
        s.out.map Line.shown <+: (List.range 5).map some ++ List.replicate 2 none ∧
        (Quiet s → s.out.map Line.shown = (List.range 5).map some ++ List.replicate 2 none ∧
          (∀ h, .error h ∈ s.out) ∧ ∀ i, s.pc i = .left) := by
  refine ⟨fun as s hrun => length_le hrun, fun s hs => ?_⟩
  have hi := inv_of_reachable hs
  refine ⟨hi.shown, fun hq => ?_⟩
  obtain ⟨⟨hwait, hfree⟩, hleft⟩ := finished_of_quiet hi hq
  have hall : ∀ h, h ∈ errors s.out := by
    intro h
    by_contra hnew
    obtain ⟨j, hj⟩ := hi.kept h (hwait h) hnew
    exact hi.handler_of_free hfree j hj
  refine ⟨hi.shown_of_errors hall, fun h => ?_, hleft⟩
  obtain ⟨line, hline, hfailed⟩ := List.mem_filterMap.1 (hall h)
  cases line with
  | count => cases hfailed
  | error g =>
      cases hfailed
      exact hline

/-- The timer expires, and its handler takes `n` steps in thread `i`. -/
def call (i : ι) (h : Handler) (n : ℕ) : List (Act ι) :=
  .expire h :: .start i h :: List.replicate n (.run i)

/-- The timers take turns, in two threads that take turns. -/
def turns (i j : ι) : List (Act ι) :=
  call i .print1 6 ++ call j .print2 6 ++ call i .print1 6 ++ call j .print2 6 ++
    call i .print1 6 ++ call j .print2 3 ++ call i .print1 3 ++ [.leave i, .leave j]

theorem stops_after_five_twoThreads : ∃ s, (machine (Fin 2)).Reachable s ∧
    s.out = [.count .print1 0, .count .print2 1, .count .print1 2, .count .print2 3,
      .count .print1 4, .error .print2, .error .print1] ∧
    s.out.map Line.shown <+: (List.range 5).map some ++ List.replicate 2 none := by
  have hrun : ((machine (Fin 2)).run (turns 0 1)).map State.out =
      some [.count .print1 0, .count .print2 1, .count .print1 2, .count .print2 3,
        .count .print1 4, .error .print2, .error .print1] := by decide +kernel
  obtain ⟨s, -, hs, hout⟩ := Machine.reachable_of_run_map hrun
  exact ⟨s, hs, hout, (stops_after_five.2 s hs).1⟩

end Londa.Timer
