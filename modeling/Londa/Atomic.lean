import Londa.Machine
import Mathlib.Logic.Function.Basic

/-!
# Operations that take effect at one moment

An object has a value and sequential operations. Used by several threads at a time, a call
of an operation is pending, takes effect at one moment and then returns its result. A
history of calls and returns is linearizable when moments of effect can be put into it.
A program whose steps are matched by such an object has linearizable histories only.
-/

namespace Londa

/-- A sequential object. -/
structure Atomic (σ Op Ret : Type*) where
  init : σ
  apply : Op → σ → σ × Ret

namespace Atomic

variable {ι σ Op Ret : Type*}

inductive Status (Op Ret : Type*)
  | idle
  | pending (op : Op)
  | done (r : Ret)

inductive Event (ι Op Ret : Type*)
  | call (i : ι) (op : Op)
  | effect (i : ι)
  | ret (i : ι) (r : Ret)
  deriving DecidableEq

def Event.external : Event ι Op Ret → Bool
  | .effect _ => false
  | _ => true

structure State (ι σ Op Ret : Type*) where
  value : σ
  status : ι → Status Op Ret

section

variable [DecidableEq ι] [DecidableEq Ret] (O : Atomic σ Op Ret)

def step (s : State ι σ Op Ret) : Event ι Op Ret → Option (State ι σ Op Ret)
  | .call i op =>
      match s.status i with
      | .idle => some { s with status := Function.update s.status i (.pending op) }
      | _ => none
  | .effect i =>
      match s.status i with
      | .pending op => some
          { value := (O.apply op s.value).1
            status := Function.update s.status i (.done (O.apply op s.value).2) }
      | _ => none
  | .ret i r =>
      match s.status i with
      | .done r' =>
          if r' = r then some { s with status := Function.update s.status i .idle } else none
      | _ => none

def machine : Machine (State ι σ Op Ret) (Event ι Op Ret) where
  init := ⟨O.init, fun _ => .idle⟩
  step := O.step

def Linearizable (history : List (Event ι Op Ret)) : Prop :=
  ∃ events, (O.machine.run events).isSome ∧ events.filter Event.external = history

variable {O} {s : State ι σ Op Ret} {i : ι} {op : Op} {r : Ret}

theorem run_call (h : s.status i = .idle) : O.machine.runFrom s [.call i op] =
    some { s with status := Function.update s.status i (.pending op) } := by
  simp [Machine.runFrom, machine, step, h]

theorem run_effect (h : s.status i = .pending op) : O.machine.runFrom s [.effect i] =
    some { value := (O.apply op s.value).1
           status := Function.update s.status i (.done (O.apply op s.value).2) } := by
  simp [Machine.runFrom, machine, step, h]

theorem run_ret (h : s.status i = .done r) : O.machine.runFrom s [.ret i r] =
    some { s with status := Function.update s.status i .idle } := by
  simp [Machine.runFrom, machine, step, h]

/-- The rule of simulation: where every step of a program is matched by events of the object
that show the same calls and returns, the histories of the program are linearizable. -/
theorem linearizable_of_simulation {τ α : Type*} {M : Machine τ α}
    {history : τ → List (Event ι Op Ret)} {R : τ → State ι σ Op Ret → Prop} {s : τ}
    (h : M.Reachable s) (hnil : history M.init = []) (hinit : R M.init O.machine.init)
    (hstep : ∀ {s t a u}, M.Reachable s → R s u → M.step s a = some t →
      ∃ events v, O.machine.runFrom u events = some v ∧ R t v ∧
        history t = history s ++ events.filter Event.external) :
    O.Linearizable (history s) := by
  have hinv : ∃ events v, O.machine.run events = some v ∧ R s v ∧
      events.filter Event.external = history s := by
    apply h.invariant (I := fun s => ∃ events v, O.machine.run events = some v ∧ R s v ∧
      events.filter Event.external = history s)
    · exact ⟨[], _, rfl, hinit, hnil.symm⟩
    · rintro s t a hr ⟨events, u, hrun, hu, hhist⟩ hst
      obtain ⟨more, v, hmore, hv, ht⟩ := hstep hr hu hst
      refine ⟨events ++ more, v, ?_, hv, ?_⟩
      · unfold Machine.run at hrun ⊢
        rw [Machine.runFrom_append, hrun]
        exact hmore
      · rw [List.filter_append, hhist, ht]
  obtain ⟨events, v, hrun, -, hhist⟩ := hinv
  exact ⟨events, by rw [hrun]; rfl, hhist⟩

end
end Atomic
end Londa
