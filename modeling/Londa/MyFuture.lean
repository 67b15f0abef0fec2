import Londa.Machine
import Londa.Counting

/-!
# Handles and the reference count of a shared future

Model of the constructors and the destructor of `MyFuture` in
`code/concurrent/MyFuture.cpp` with the counter of `MyFutureInner`. Inner objects
and handles are numbered in the order of their creation. A copy stores the
pointer and then increases the count; a move stores the pointer and then clears
the source; the destructor tests the pointer, decreases the count and deletes the
object on zero. The steps of all handles interleave. `count_` is an
`std::atomic_int`, whose arithmetic wraps at 32 bits.

The source of a copy is a live handle with a pointer and is neither destroyed nor
moved from before the copy is complete; a handle that is moved from is not used
by another operation meanwhile.
-/

namespace Londa.MyFuture

structure Inner where
  count : BitVec 32
  deletions : ℕ
  deriving DecidableEq

inductive Handle
  | copying (p src : ℕ)
  | moving (p : Option ℕ) (src : ℕ)
  | live (p : Option ℕ)
  | releasing (p : ℕ)
  | deleting (p : ℕ)
  | dead
  deriving DecidableEq

structure State where
  inners : List Inner
  handles : List Handle
  deriving DecidableEq

inductive Act
  | construct
  | copyFrom (src : ℕ)
  | increase (h : ℕ)
  | moveFrom (src : ℕ)
  | clear (h : ℕ)
  | destroy (h : ℕ)
  | decrease (h : ℕ)
  | delete (h : ℕ)

/-- The handle whose pointer an unfinished construction has read. -/
def Handle.source : Handle → Option ℕ
  | .copying _ src => some src
  | .moving _ src => some src
  | _ => none

def Handle.movesFrom (src : ℕ) : Handle → Bool
  | .moving _ x => x == src
  | _ => false

/-- The handle points to `p`, is completely constructed and has not performed its
decrement. -/
def Handle.counted (p : ℕ) : Handle → Bool
  | .live (some x) => x == p
  | .releasing x => x == p
  | _ => false

def Handle.deletes (p : ℕ) : Handle → Bool
  | .deleting x => x == p
  | _ => false

def State.busy (s : State) (h : ℕ) : Bool := s.handles.any (fun x => x.source == some h)

def State.uses (s : State) (p : ℕ) : ℕ := s.handles.countP (Handle.counted p)

def State.deleters (s : State) (p : ℕ) : ℕ := s.handles.countP (Handle.deletes p)

/-- `increase_reference`. -/
def Inner.increase (x : Inner) : Inner := { x with count := x.count + 1 }

/-- `decrease_reference`: the new value is also what the caller compares with 0. -/
def Inner.decrease (x : Inner) : Inner := { x with count := x.count - 1 }

def Inner.delete (x : Inner) : Inner := { x with deletions := x.deletions + 1 }

def step (s : State) : Act → Option State
  | .construct => some ⟨s.inners ++ [⟨1, 0⟩], s.handles ++ [.live (some s.inners.length)]⟩
  | .copyFrom src =>
      match s.handles[src]? with
      | some (.live (some p)) =>
          if s.handles.any (Handle.movesFrom src) then none
          else some { s with handles := s.handles ++ [.copying p src] }
      | _ => none
  | .increase h =>
      match s.handles[h]? with
      | some (.copying p _) =>
          some ⟨s.inners.modify p Inner.increase, s.handles.set h (.live (some p))⟩
      | _ => none
  | .moveFrom src =>
      match s.handles[src]? with
      | some (.live p) =>
          if s.busy src then none else some { s with handles := s.handles ++ [.moving p src] }
      | _ => none
  | .clear h =>
      match s.handles[h]? with
      | some (.moving p src) =>
          some { s with handles := (s.handles.set src (.live none)).set h (.live p) }
      | _ => none
  | .destroy h =>
      match s.handles[h]? with
      | some (.live none) =>
          if s.busy h then none else some { s with handles := s.handles.set h .dead }
      | some (.live (some p)) =>
          if s.busy h then none else some { s with handles := s.handles.set h (.releasing p) }
      | _ => none
  | .decrease h =>
      match s.handles[h]? with
      | some (.releasing p) =>
          some ⟨s.inners.modify p Inner.decrease, s.handles.set h
            (if (s.inners[p]?.map (fun x => x.decrease.count)) = some 0 then .deleting p
              else .dead)⟩
      | _ => none
  | .delete h =>
      match s.handles[h]? with
      | some (.deleting p) => some ⟨s.inners.modify p Inner.delete, s.handles.set h .dead⟩
      | _ => none

def machine : Machine State Act where
  init := ⟨[], []⟩
  step := step

inductive Trans (s : State) : Act → State → Prop
  | construct : Trans s .construct
      ⟨s.inners ++ [⟨1, 0⟩], s.handles ++ [.live (some s.inners.length)]⟩
  | copyFrom (src p : ℕ) (hh : s.handles[src]? = some (.live (some p)))
      (hm : s.handles.any (Handle.movesFrom src) = false) :
      Trans s (.copyFrom src) { s with handles := s.handles ++ [.copying p src] }
  | increase (h p src : ℕ) (hh : s.handles[h]? = some (.copying p src)) :
      Trans s (.increase h) ⟨s.inners.modify p Inner.increase, s.handles.set h (.live (some p))⟩
  | moveFrom (src : ℕ) (p : Option ℕ) (hh : s.handles[src]? = some (.live p))
      (hb : s.busy src = false) :
      Trans s (.moveFrom src) { s with handles := s.handles ++ [.moving p src] }
  | clear (h : ℕ) (p : Option ℕ) (src : ℕ) (hh : s.handles[h]? = some (.moving p src)) :
      Trans s (.clear h) { s with handles := (s.handles.set src (.live none)).set h (.live p) }
  | skip (h : ℕ) (hh : s.handles[h]? = some (.live none)) (hb : s.busy h = false) :
      Trans s (.destroy h) { s with handles := s.handles.set h .dead }
  | release (h p : ℕ) (hh : s.handles[h]? = some (.live (some p))) (hb : s.busy h = false) :
      Trans s (.destroy h) { s with handles := s.handles.set h (.releasing p) }
  | decrease (h p : ℕ) (hh : s.handles[h]? = some (.releasing p))
      (hn : s.inners[p]?.map (fun x => x.decrease.count) ≠ some 0) :
      Trans s (.decrease h) ⟨s.inners.modify p Inner.decrease, s.handles.set h .dead⟩
  | last (h p : ℕ) (hh : s.handles[h]? = some (.releasing p))
      (hz : s.inners[p]?.map (fun x => x.decrease.count) = some 0) :
      Trans s (.decrease h) ⟨s.inners.modify p Inner.decrease, s.handles.set h (.deleting p)⟩
  | delete (h p : ℕ) (hh : s.handles[h]? = some (.deleting p)) :
      Trans s (.delete h) ⟨s.inners.modify p Inner.delete, s.handles.set h .dead⟩

theorem step_trans {s t : State} {a : Act} (hst : machine.step s a = some t) : Trans s a t := by
  change step s a = some t at hst
  cases a with
  | construct => exact Option.some.inj hst ▸ .construct
  | copyFrom src =>
      simp only [step] at hst
      split at hst
      case h_1 p hh =>
        split_ifs at hst with hm
        exact Option.some.inj hst ▸ .copyFrom src p hh (by simpa using hm)
      case h_2 => cases hst
  | increase h =>
      simp only [step] at hst
      split at hst
      case h_1 p src hh => exact Option.some.inj hst ▸ .increase h p src hh
      case h_2 => cases hst
  | moveFrom src =>
      simp only [step] at hst
      split at hst
      case h_1 p hh =>
        split_ifs at hst with hb
        exact Option.some.inj hst ▸ .moveFrom src p hh (by simpa using hb)
      case h_2 => cases hst
  | clear h =>
      simp only [step] at hst
      split at hst
      case h_1 p src hh => exact Option.some.inj hst ▸ .clear h p src hh
      case h_2 => cases hst
  | destroy h =>
      simp only [step] at hst
      split at hst
      case h_1 hh =>
        split_ifs at hst with hb
        exact Option.some.inj hst ▸ .skip h hh (by simpa using hb)
      case h_2 p hh =>
        split_ifs at hst with hb
        exact Option.some.inj hst ▸ .release h p hh (by simpa using hb)
      case h_3 => cases hst
  | decrease h =>
      simp only [step] at hst
      split at hst
      case h_1 p hh =>
        split_ifs at hst with hz
        · exact Option.some.inj hst ▸ .last h p hh hz
        · exact Option.some.inj hst ▸ .decrease h p hh hz
      case h_2 => cases hst
  | delete h =>
      simp only [step] at hst
      split at hst
      case h_1 p hh => exact Option.some.inj hst ▸ .delete h p hh
      case h_2 => cases hst

end Londa.MyFuture
