import Londa.Atomic
import Londa.RwLock

/-!
# The counter under a shared mutex

Any number of threads call the operations of one `ThreadSaferCounter`. A read holds the
mutex shared and a write holds it exclusively, from before the access to after the copy of
the result. The increment is a load and a store, and its result is loaded again.
-/

namespace Londa.ThreadSaferCounter

inductive Op
  | get
  | increment
  | reset
  deriving DecidableEq

/-- The number of values of an `unsigned int`. -/
def uintBound : ℕ := 4294967296

inductive Pc
  | idle
  | locking (op : Op)
  | reading
  | incrementing
  | storing (v : ℕ)
  | loading
  | clearing
  | unlocking (op : Op) (r : Option ℕ)
  | returning (r : Option ℕ)
  deriving DecidableEq

structure Counter (ι : Type*) where
  value_ : ℕ
  mutex_ : RwLock ι
  pc : ι → Pc

variable {ι : Type*}

def Counter.init : Counter ι := ⟨0, .free, fun _ => .idle⟩

section Step

variable [DecidableEq ι]

def Counter.goto (c : Counter ι) (i : ι) (p : Pc) : Counter ι :=
  { c with pc := Function.update c.pc i p }

/-- The thread calls an operation. -/
def Counter.call (c : Counter ι) (i : ι) (op : Op) : Option (Counter ι) :=
  if c.pc i = .idle then some (c.goto i (.locking op)) else none

/-- The next step of a call, with its result where the call returns. -/
def Counter.threadStep (c : Counter ι) (i : ι) : Option (Counter ι × Option (Option ℕ)) :=
  match c.pc i with
  | .idle => none
  | .locking .get =>
      if c.mutex_.owner = none then
        some ({ c.goto i .reading with mutex_ := c.mutex_.lockShared i }, none)
      else none
  | .locking .increment =>
      if c.mutex_.Idle then
        some ({ c.goto i .incrementing with mutex_ := c.mutex_.lock i }, none)
      else none
  | .locking .reset =>
      if c.mutex_.Idle then
        some ({ c.goto i .clearing with mutex_ := c.mutex_.lock i }, none)
      else none
  | .reading => some (c.goto i (.unlocking .get (some c.value_)), none)
  | .incrementing => some (c.goto i (.storing ((c.value_ + 1) % uintBound)), none)
  | .storing v => some ({ c.goto i .loading with value_ := v }, none)
  | .loading => some (c.goto i (.unlocking .increment (some c.value_)), none)
  | .clearing => some ({ c.goto i (.unlocking .reset none) with value_ := 0 }, none)
  | .unlocking .get r =>
      some ({ c.goto i (.returning r) with mutex_ := c.mutex_.unlockShared i }, none)
  | .unlocking _ r => some ({ c.goto i (.returning r) with mutex_ := c.mutex_.unlock }, none)
  | .returning r => some (c.goto i .idle, some r)

/-- What a step of a call can do. -/
inductive Trans (c : Counter ι) (i : ι) : Counter ι → Option (Option ℕ) → Prop
  | lockShared : c.pc i = .locking .get → c.mutex_.owner = none →
      Trans c i { c.goto i .reading with mutex_ := c.mutex_.lockShared i } none
  | lockIncrement : c.pc i = .locking .increment → c.mutex_.Idle →
      Trans c i { c.goto i .incrementing with mutex_ := c.mutex_.lock i } none
  | lockReset : c.pc i = .locking .reset → c.mutex_.Idle →
      Trans c i { c.goto i .clearing with mutex_ := c.mutex_.lock i } none
  | read : c.pc i = .reading → Trans c i (c.goto i (.unlocking .get (some c.value_))) none
  | increment : c.pc i = .incrementing →
      Trans c i (c.goto i (.storing ((c.value_ + 1) % uintBound))) none
  | store (v : ℕ) : c.pc i = .storing v → Trans c i { c.goto i .loading with value_ := v } none
  | load : c.pc i = .loading → Trans c i (c.goto i (.unlocking .increment (some c.value_))) none
  | clear : c.pc i = .clearing →
      Trans c i { c.goto i (.unlocking .reset none) with value_ := 0 } none
  | unlockShared (r : Option ℕ) : c.pc i = .unlocking .get r →
      Trans c i { c.goto i (.returning r) with mutex_ := c.mutex_.unlockShared i } none
  | unlock (op : Op) (r : Option ℕ) : c.pc i = .unlocking op r → op ≠ .get →
      Trans c i { c.goto i (.returning r) with mutex_ := c.mutex_.unlock } none
  | ret (r : Option ℕ) : c.pc i = .returning r → Trans c i (c.goto i .idle) (some r)

theorem threadStep_trans {c c' : Counter ι} {i : ι} {r : Option (Option ℕ)}
    (h : c.threadStep i = some (c', r)) : Trans c i c' r := by
  unfold Counter.threadStep at h
  cases hpc : c.pc i with
  | idle => simp [hpc] at h
  | locking op =>
      cases op <;> simp only [hpc, Option.ite_none_right_eq_some, Option.some.injEq,
        Prod.mk.injEq] at h <;> obtain ⟨hfree, rfl, rfl⟩ := h
      · exact .lockShared hpc hfree
      · exact .lockIncrement hpc hfree
      · exact .lockReset hpc hfree
  | reading =>
      simp only [hpc, Option.some.injEq, Prod.mk.injEq] at h
      obtain ⟨rfl, rfl⟩ := h
      exact .read hpc
  | incrementing =>
      simp only [hpc, Option.some.injEq, Prod.mk.injEq] at h
      obtain ⟨rfl, rfl⟩ := h
      exact .increment hpc
  | storing v =>
      simp only [hpc, Option.some.injEq, Prod.mk.injEq] at h
      obtain ⟨rfl, rfl⟩ := h
      exact .store v hpc
  | loading =>
      simp only [hpc, Option.some.injEq, Prod.mk.injEq] at h
      obtain ⟨rfl, rfl⟩ := h
      exact .load hpc
  | clearing =>
      simp only [hpc, Option.some.injEq, Prod.mk.injEq] at h
      obtain ⟨rfl, rfl⟩ := h
      exact .clear hpc
  | unlocking op r =>
      cases op <;> simp only [hpc, Option.some.injEq, Prod.mk.injEq] at h <;>
        obtain ⟨rfl, rfl⟩ := h
      · exact .unlockShared r hpc
      · exact .unlock .increment r hpc (by decide)
      · exact .unlock .reset r hpc (by decide)
  | returning r =>
      simp only [hpc, Option.some.injEq, Prod.mk.injEq] at h
      obtain ⟨rfl, rfl⟩ := h
      exact .ret r hpc

end Step

/-- The threads in a section under the exclusive lock. -/
def Pc.writing : Pc → Bool
  | .incrementing => true
  | .storing _ => true
  | .loading => true
  | .clearing => true
  | .unlocking .increment _ => true
  | .unlocking .reset _ => true
  | _ => false

/-- The threads in a section under the shared lock. -/
def Pc.sharing : Pc → Bool
  | .reading => true
  | .unlocking .get _ => true
  | _ => false

/-- The mutex guards its sections, and what is about to be stored is one more than the value. -/
structure Counter.Sound (c : Counter ι) : Prop where
  guards : c.mutex_.Guards (fun j => (c.pc j).writing) (fun j => (c.pc j).sharing)
  fresh : ∀ i v, c.pc i = .storing v → v = (c.value_ + 1) % uintBound

theorem Counter.sound_init : (Counter.init : Counter ι).Sound :=
  ⟨⟨fun _ => by simp [Counter.init, Pc.writing, RwLock.free],
    fun _ => by simp [Counter.init, Pc.sharing, RwLock.free], fun _ => rfl⟩, nofun⟩

section Sound

variable [DecidableEq ι] {c c' : Counter ι} {i : ι} {p : Pc} {r : Option (Option ℕ)}

theorem Counter.Sound.guards_goto (h : c.Sound) (hw : p.writing = (c.pc i).writing)
    (hr : p.sharing = (c.pc i).sharing) :
    c.mutex_.Guards (fun j => ((c.goto i p).pc j).writing)
      (fun j => ((c.goto i p).pc j).sharing) :=
  h.guards.congr (update_frame Pc.writing hw) (update_frame Pc.sharing hr)

theorem Trans.frame (h : Trans c i c' r) {j : ι} (hj : j ≠ i) : c'.pc j = c.pc j := by
  cases h <;> exact Function.update_of_ne hj ..

omit [DecidableEq ι] in
/-- Only one thread is in an exclusive section. -/
theorem Counter.Sound.alone (h : c.Sound) (hi : (c.pc i).writing) {j : ι} (hj : j ≠ i) :
    (c.pc j).writing = false := by
  by_contra hw
  exact hj (h.guards.owner.unique (by simpa using hw) hi)

theorem Counter.Sound.fresh_goto (h : c.Sound)
    (hp : ∀ v, p = .storing v → v = (c.value_ + 1) % uintBound) (j : ι) (v : ℕ)
    (hj : (c.goto i p).pc j = .storing v) : v = (c.value_ + 1) % uintBound := by
  by_cases hji : j = i
  · subst j
    simp only [Counter.goto, Function.update_self] at hj
    exact hp v hj
  · simp only [Counter.goto, Function.update_of_ne hji] at hj
    exact h.fresh j v hj

theorem Counter.Sound.call (h : c.Sound) {op : Op} (hc : c.call i op = some c') : c'.Sound := by
  unfold Counter.call at hc
  split_ifs at hc with hpc
  cases Option.some.inj hc
  exact ⟨h.guards_goto (by rw [hpc]; rfl) (by rw [hpc]; rfl), h.fresh_goto nofun⟩

theorem Counter.Sound.step (h : c.Sound) (ht : Trans c i c' r) : c'.Sound := by
  have hframe (p : Pc) (f : Pc → Bool) (j : ι) (hj : j ≠ i) :
      f ((c.goto i p).pc j) = f (c.pc j) := by simp only [Counter.goto, Function.update_of_ne hj]
  have hself (p : Pc) : (c.goto i p).pc i = p := Function.update_self ..
  cases ht with
  | lockShared hpc hfree =>
      refine ⟨h.guards.lockShared hfree (i := i) ?_ (hframe _ Pc.sharing)
        (update_frame Pc.writing (by rw [hpc]; rfl)), h.fresh_goto nofun⟩
      simp only [hself]
      rfl
  | lockIncrement hpc hidle | lockReset hpc hidle =>
      refine ⟨h.guards.lock hidle (i := i) ?_ (hframe _ Pc.writing)
        (update_frame Pc.sharing (by rw [hpc]; rfl)), h.fresh_goto nofun⟩
      simp only [hself]
      rfl
  | read hpc | load hpc | ret r hpc =>
      exact ⟨h.guards_goto (by rw [hpc]; rfl) (by rw [hpc]; rfl), h.fresh_goto nofun⟩
  | increment hpc =>
      refine ⟨h.guards_goto (by rw [hpc]; rfl) (by rw [hpc]; rfl), h.fresh_goto ?_⟩
      rintro v ⟨⟩
      rfl
  | store v hpc | clear hpc =>
      refine ⟨h.guards_goto (by rw [hpc]; rfl) (by rw [hpc]; rfl), fun j w hj => ?_⟩
      by_cases hji : j = i
      · subst j
        rw [hself] at hj
        cases hj
      · have hout := h.alone (i := i) (by rw [hpc]; rfl) hji
        simp only [Counter.goto, Function.update_of_ne hji] at hj
        rw [hj] at hout
        cases hout
  | unlockShared r hpc =>
      refine ⟨h.guards.unlockShared (i := i) ?_ (hframe _ Pc.sharing)
        (update_frame Pc.writing (by rw [hpc]; rfl)), h.fresh_goto nofun⟩
      simp only [hself]
      rfl
  | unlock op r hpc hop =>
      refine ⟨h.guards.unlock (i := i) ?_ ?_ (hframe _ Pc.writing)
        (update_frame Pc.sharing ?_), h.fresh_goto nofun⟩
      · rw [hpc]
        cases op <;> simp_all [Pc.writing]
      · simp only [hself]
        rfl
      · rw [hpc]
        cases op <;> simp_all [Pc.sharing]

end Sound

/-- The counter as its users see it. -/
def object : Atomic ℕ Op (Option ℕ) where
  init := 0
  apply
    | .get, v => (v, some v)
    | .increment, v => ((v + 1) % uintBound, some ((v + 1) % uintBound))
    | .reset, _ => (0, none)

abbrev Event (ι : Type*) := Atomic.Event ι Op (Option ℕ)

/-- A counter with the calls and returns so far. -/
structure State (ι : Type*) where
  counter : Counter ι
  history : List (Event ι)

inductive Act (ι : Type*)
  | call (i : ι) (op : Op)
  | thread (i : ι)

section Linearizable

variable [DecidableEq ι]

def returned (i : ι) : Option (Option ℕ) → List (Event ι)
  | none => []
  | some r => [.ret i r]

def step (s : State ι) : Act ι → Option (State ι)
  | .call i op => (s.counter.call i op).map fun c => ⟨c, s.history ++ [.call i op]⟩
  | .thread i => (s.counter.threadStep i).map fun c => ⟨c.1, s.history ++ returned i c.2⟩

def machine : Machine (State ι) (Act ι) := ⟨⟨.init, []⟩, step⟩

/-- How far a call is: a write has taken effect when it has stored, a read when it has
loaded the value. -/
def Pc.status (value : ℕ) : Pc → Atomic.Status Op (Option ℕ)
  | .idle => .idle
  | .locking op => .pending op
  | .reading => .pending .get
  | .incrementing => .pending .increment
  | .storing _ => .pending .increment
  | .loading => .done (some value)
  | .clearing => .pending .reset
  | .unlocking _ r => .done r
  | .returning r => .done r

/-- The object that runs beside the counter. -/
def Counter.abstract (c : Counter ι) : Atomic.State ι ℕ Op (Option ℕ) :=
  ⟨c.value_, fun i => (c.pc i).status c.value_⟩

variable {c c' : Counter ι} {i : ι} {p : Pc} {r : Option (Option ℕ)} {s : State ι}

theorem abstract_goto (c : Counter ι) (i : ι) (p : Pc) : (c.goto i p).abstract =
    { c.abstract with status := Function.update c.abstract.status i (p.status c.value_) } := by
  unfold Counter.abstract Counter.goto
  congr 1
  funext j
  by_cases hj : j = i
  · subst j
    simp
  · simp [Function.update_of_ne hj]

theorem abstract_goto_same (h : p.status c.value_ = (c.pc i).status c.value_) :
    (c.goto i p).abstract = c.abstract := by
  rw [abstract_goto, h]
  exact congrArg (Atomic.State.mk _) (Function.update_eq_self i _)

/-- A new value is noticed only by a thread that has stored and not yet loaded again. -/
theorem abstract_store {v : ℕ} (h : ∀ j, j ≠ i → c.pc j ≠ .loading) :
    ({ c.goto i p with value_ := v } : Counter ι).abstract =
      { value := v, status := Function.update c.abstract.status i (p.status v) } := by
  unfold Counter.abstract Counter.goto
  congr 1
  funext j
  by_cases hj : j = i
  · subst j
    simp
  · have hload := h j hj
    simp only [Function.update_of_ne hj]
    cases hpc : c.pc j <;> simp_all [Pc.status]

omit [DecidableEq ι] in
theorem abstract_status (h : c.pc i = p) : c.abstract.status i = p.status c.value_ :=
  congrArg (Pc.status c.value_) h

/-- A step that the object does not notice. -/
theorem matched_goto (h : p.status c.value_ = (c.pc i).status c.value_) :
    ∃ events, object.machine.runFrom c.abstract events = some (c.goto i p).abstract ∧
      events.filter Atomic.Event.external = returned i none :=
  ⟨[], congrArg some (abstract_goto_same h).symm, rfl⟩

omit [DecidableEq ι] in
theorem Counter.Sound.not_loading (h : c.Sound) (hi : (c.pc i).writing) (j : ι) (hj : j ≠ i) :
    c.pc j ≠ .loading := by
  intro hload
  have hout := h.alone hi hj
  rw [hload] at hout
  cases hout

/-- Every step of a call is matched by at most one event of the object. -/
theorem step_matched (h : c.Sound) (ht : Trans c i c' r) :
    ∃ events, object.machine.runFrom c.abstract events = some c'.abstract ∧
      events.filter Atomic.Event.external = returned i r := by
  cases ht with
  | lockShared hpc hfree => exact matched_goto (p := .reading) (by rw [hpc]; rfl)
  | lockIncrement hpc hidle => exact matched_goto (p := .incrementing) (by rw [hpc]; rfl)
  | lockReset hpc hidle => exact matched_goto (p := .clearing) (by rw [hpc]; rfl)
  | increment hpc => exact matched_goto (p := .storing _) (by rw [hpc]; rfl)
  | load hpc => exact matched_goto (p := .unlocking .increment _) (by rw [hpc]; rfl)
  | unlockShared r hpc | unlock _ r hpc => exact matched_goto (p := .returning r) (by rw [hpc]; rfl)
  | read hpc =>
      have hstatus : c.abstract.status i = .pending .get := abstract_status hpc
      refine ⟨[.effect i], ?_, rfl⟩
      rw [Atomic.run_effect hstatus, abstract_goto]
      rfl
  | store v hpc =>
      have hstatus : c.abstract.status i = .pending .increment := abstract_status hpc
      refine ⟨[.effect i], ?_, rfl⟩
      rw [Atomic.run_effect hstatus,
        abstract_store (h.not_loading (by rw [hpc]; rfl)), h.fresh i v hpc]
      rfl
  | clear hpc =>
      have hstatus : c.abstract.status i = .pending .reset := abstract_status hpc
      refine ⟨[.effect i], ?_, rfl⟩
      rw [Atomic.run_effect hstatus,
        abstract_store (h.not_loading (by rw [hpc]; rfl))]
      rfl
  | ret r hpc =>
      refine ⟨[.ret i r], ?_, rfl⟩
      rw [Atomic.run_ret (abstract_status hpc), abstract_goto]
      rfl

theorem call_matched {op : Op} (h : c.call i op = some c') :
    object.machine.runFrom c.abstract [.call i op] = some c'.abstract := by
  unfold Counter.call at h
  split_ifs at h with hpc
  cases Option.some.inj h
  rw [Atomic.run_call (abstract_status hpc), abstract_goto]
  rfl

theorem sound_of_reachable (h : (machine (ι := ι)).Reachable s) : s.counter.Sound := by
  apply h.invariant (I := fun s => s.counter.Sound) Counter.sound_init
  intro s t a _ hi hst
  cases a with
  | call i op =>
      obtain ⟨c, hc, rfl⟩ := Option.map_eq_some_iff.1 hst
      exact hi.call hc
  | thread i =>
      obtain ⟨⟨c, r⟩, hc, rfl⟩ := Option.map_eq_some_iff.1 hst
      exact hi.step (threadStep_trans hc)

/-- Whatever threads call whatever operations at whatever times, the results are those of
some order of the calls in which each stands between its call and its return. -/
theorem counter_linearizable (h : (machine (ι := ι)).Reachable s) :
    object.Linearizable s.history := by
  refine Atomic.linearizable_of_simulation (R := fun s u => u = s.counter.abstract) h rfl rfl ?_
  rintro s t a u hr rfl hst
  cases a with
  | call i op =>
      obtain ⟨c, hc, rfl⟩ := Option.map_eq_some_iff.1 hst
      exact ⟨[.call i op], _, call_matched hc, rfl, rfl⟩
  | thread i =>
      obtain ⟨⟨c, r⟩, hc, rfl⟩ := Option.map_eq_some_iff.1 hst
      obtain ⟨events, hrun, hfilter⟩ := step_matched (sound_of_reachable hr) (threadStep_trans hc)
      exact ⟨events, _, hrun, rfl, by rw [hfilter]⟩

end Linearizable

/-- A read is called during an increment and returns before it does. -/
def overlapping : List (Act Bool) :=
  [.call true .increment, .thread true, .call false .get, .thread true, .thread true,
    .thread true, .thread true, .thread false, .thread false, .thread false, .thread false]

theorem counter_linearizable_overlapping : ∃ s, machine.run overlapping = some s ∧
    s.history = [.call true .increment, .call false .get, .ret false (some 1)] ∧
      object.Linearizable s.history := by
  have hrun : (machine.run overlapping).map State.history =
      some [.call true .increment, .call false .get, .ret false (some 1)] := by decide +kernel
  obtain ⟨s, hs, hreach, hhist⟩ := Machine.reachable_of_run_map hrun
  exact ⟨s, hs, hhist, counter_linearizable hreach⟩

end Londa.ThreadSaferCounter
