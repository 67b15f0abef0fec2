import Londa.Machine
import Londa.Transfers

/-!
# Two machines side by side

The machines take steps in any order. What connects them is a condition on their states that
every joint step has to keep, such as that a byte is read only after it was written. Whatever
holds of the runs of one machine alone holds of it in the joint runs.
-/

namespace Londa

structure Pair (σ τ α β : Type*) where
  left : Machine σ α
  right : Machine τ β
  linked : σ → τ → Bool

namespace Pair

variable {σ τ α β : Type*} (P : Pair σ τ α β)

def step (s : σ × τ) : α ⊕ β → Option (σ × τ)
  | .inl a => (P.left.step s.1 a).bind fun t => if P.linked t s.2 then some (t, s.2) else none
  | .inr b => (P.right.step s.2 b).bind fun t => if P.linked s.1 t then some (s.1, t) else none

def machine : Machine (σ × τ) (α ⊕ β) := ⟨(P.left.init, P.right.init), P.step⟩

variable {P} {s t : σ × τ} {a : α} {b : β}

theorem step_left (h : P.step s (.inl a) = some t) :
    P.left.step s.1 a = some t.1 ∧ t.2 = s.2 ∧ P.linked t.1 t.2 := by
  obtain ⟨u, hu, ht⟩ := Option.bind_eq_some_iff.1 h
  split_ifs at ht with hlinked
  cases Option.some.inj ht
  exact ⟨hu, rfl, hlinked⟩

theorem step_right (h : P.step s (.inr b) = some t) :
    P.right.step s.2 b = some t.2 ∧ t.1 = s.1 ∧ P.linked t.1 t.2 := by
  obtain ⟨u, hu, ht⟩ := Option.bind_eq_some_iff.1 h
  split_ifs at ht with hlinked
  cases Option.some.inj ht
  exact ⟨hu, rfl, hlinked⟩

section Reachable

variable {C : σ × τ → α ⊕ β → Prop}

theorem left_reachableBy {D : σ → α → Prop} (hCD : ∀ s a, C s (.inl a) → D s.1 a)
    (h : P.machine.ReachableBy C s) : P.left.ReachableBy D s.1 := by
  refine h.invariant (I := fun s => P.left.ReachableBy D s.1) .init ?_
  rintro s t (a | b) - hs hc hst
  · exact hs.step (hCD s a hc) (step_left hst).1
  · rw [(step_right hst).2.1]
    exact hs

theorem right_reachableBy {D : τ → β → Prop} (hCD : ∀ s b, C s (.inr b) → D s.2 b)
    (h : P.machine.ReachableBy C s) : P.right.ReachableBy D s.2 := by
  refine h.invariant (I := fun s => P.right.ReachableBy D s.2) .init ?_
  rintro s t (a | b) - hs hc hst
  · rw [(step_left hst).2.1]
    exact hs
  · exact hs.step (hCD s b hc) (step_right hst).1

theorem linked_of_reachableBy (h₀ : P.linked P.left.init P.right.init)
    (h : P.machine.ReachableBy C s) : P.linked s.1 s.2 := by
  refine h.invariant (I := fun s => P.linked s.1 s.2) h₀ ?_
  rintro s t (a | b) - - - hst
  · exact (step_left hst).2.2
  · exact (step_right hst).2.2

end Reachable
end Pair

namespace Transfers

variable {κ κ' : Type*} [DecidableEq κ] [DecidableEq κ']

/-- Connection `c` of one log is the other end of connection `c'` of the other: on both ends
only what the other end has sent is received, in the same order. -/
def Connected (log : List (Transfer κ)) (c : κ) (log' : List (Transfer κ')) (c' : κ') : Prop :=
  received log c <+: sent log' c' ∧ received log' c' <+: sent log c

instance decidableConnected (log : List (Transfer κ)) (c : κ) (log' : List (Transfer κ'))
    (c' : κ') : Decidable (Connected log c log' c') := inferInstanceAs (Decidable (_ ∧ _))

end Transfers
end Londa
