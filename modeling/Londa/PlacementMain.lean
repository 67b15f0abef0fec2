import Londa.PlacementCommands

/-!
# The shell from its input to the shared memory

`main` of `code/IPC/SHM/SystemV/placement.cpp` as a whole: the turns of the command loop, each
carrying out the command that it dispatches. `answers` are the results that the system calls
will give, command by command. The prompt is left out of the output.

A command that works where nothing is attached is undefined and leaves the loop without a
result, as does an answer that is not for the command dispatched.
-/

namespace Londa.Placement

inductive Output
  | line (l : Line)
  | help
  | unknown (name : List UInt8)
  deriving DecidableEq

structure Run where
  state : State
  answers : List Act
  out : List Output
  deriving DecidableEq

def perform (server : Bool) (r : Run) : Cmd → Option Run
  | .quit => some r
  | .help => some { r with out := r.out ++ [.help] }
  | .unknown name => some { r with out := r.out ++ [.unknown name] }
  | .run c =>
      match r.answers with
      | [] => none
      | a :: answers =>
          if a.command = c then
            (exec server r.state a).bind fun (state, lines) =>
              if state.fault then none
              else some ⟨state, answers, r.out ++ lines.map .line⟩
          else none

/-- The commands in order, up to the first without a result. -/
def script (server : Bool) : Run → List Cmd → Option Run
  | r, [] => some r
  | r, c :: cs => (perform server r c).bind fun r => script server r cs

/-- The commands on the segment and on the object. -/
def Cmd.command : Cmd → Option Command
  | .run c => some c
  | .quit | .help | .unknown _ => none

variable {server : Bool} {s t : State} {σ : Session} {shell : Shell} {stdin : List UInt8}

section Turn

variable (server) (r : Run)

end Turn

/-- A session that keeps the discipline never works where nothing is attached. -/
theorem Tracks.running {a : Act} {τ : Session} (h : Tracks σ s) (hn : σ.next a = some τ)
    (hst : Trans server s a t) (hrunning : s.fault = false) : t.fault = false := by
  cases hst with
  | wild _ hfree =>
      simp only [Session.next] at hn
      split at hn
      · rename_i hatt
        exact absurd (h.addr hatt) hfree
      · cases hn
  | dangling ha hobject hfree =>
      rw [next_of_usesObject ha] at hn
      split at hn
      · cases hn
      · rename_i hstale
        rcases h.object hstale with hnull | hatt
        · exact absurd hnull hobject
        · exact absurd hatt hfree
  | noSegment | unmapped | mapped | unattached | notDetached | constructed | adopted | refused
  | called => exact hrunning

end Londa.Placement
