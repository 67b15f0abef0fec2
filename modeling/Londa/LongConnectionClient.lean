import Londa.Machine
import Londa.PlacementCommands
import Londa.Transfers

/-!
# The client of the edge-triggered echo server

Model of `client_handle` in `code/network/TCP/long_connection.client.c`. A turn of its loop
takes the next line of standard input, sends it and waits for one answer, which it writes to
standard output. The loop is left at the end of the input, by a line that begins with `#`, and
when the server has closed the connection. The results of both calls of `write` are ignored,
and a `read` that fails is followed by a `write` of `-1` bytes, which writes nothing.

`log` has the transfers on the socket and those that `write` makes on standard output; the
lines that `printf` adds there are left out.
-/

namespace Londa.LongConnectionClient

open Placement (fgets fgetsLine)
open Transfers (received sent)

def MAXLEN : ℕ := 65535

def STDOUT_FILENO : ℕ := 1

/-- The character `#`. -/
def hash : UInt8 := 35

/-- The loop is before `fgets`, before `read`, or left. -/
inductive Phase
  | typing
  | asked
  | left
  deriving DecidableEq

structure State where
  stdin : List UInt8
  sendbuf : Buffer
  recvbuf : Buffer
  phase : Phase
  log : List (Transfer ℕ)

/-- The log after a `write` of the bytes offered; `none` is the result `-1`. -/
def wrote (fd : ℕ) (offered : List UInt8) (log : List (Transfer ℕ)) :
    Option ℕ → Option (List (Transfer ℕ))
  | none => some log
  | some n => if offered.length < n then none else some (log ++ [⟨fd, .write, offered.take n⟩])

/-- The calls that can block, with the results of the `write` that follows `read` or ends the
first half of the turn. -/
inductive Act
  | line (write : Option ℕ)
  | reply (read : Option (List UInt8)) (write : Option ℕ)

def sendLine (sockfd : ℕ) (s : State) (write : Option ℕ) : Option State :=
  match fgets s.sendbuf MAXLEN s.stdin with
  | none => some { s with phase := .left }
  | some (sendbuf, stdin) =>
      if sendbuf 0 = hash then some { s with stdin := stdin, sendbuf := sendbuf, phase := .left }
      else
        (sendbuf.cstring MAXLEN).bind fun line =>
          (wrote sockfd line s.log write).map fun log =>
            { s with stdin := stdin, sendbuf := sendbuf, phase := .asked, log := log }

def printReply (sockfd : ℕ) (s : State) (read : Option (List UInt8)) (write : Option ℕ) :
    Option State :=
  match read with
  | none => some { s with phase := .typing }
  | some [] => some { s with phase := .left }
  | some chunk =>
      if MAXLEN < chunk.length then none
      else
        let recvbuf := s.recvbuf.store 0 chunk
        (wrote STDOUT_FILENO (recvbuf.slice 0 chunk.length)
          (s.log ++ [⟨sockfd, .read, chunk⟩]) write).map fun log =>
            { s with recvbuf := recvbuf, phase := .typing, log := log }

def step (sockfd : ℕ) (s : State) : Act → Option State
  | .line write => if s.phase = .typing then sendLine sockfd s write else none
  | .reply read write => if s.phase = .asked then printReply sockfd s read write else none

def client (sockfd : ℕ) (stdin : List UInt8) : Machine State Act where
  init := ⟨stdin, Buffer.zero, Buffer.zero, .typing, []⟩
  step := step sockfd

/-- The string that the next line of the input sends, and the input after it. -/
def request (stdin : List UInt8) : Option (List UInt8 × List UInt8) :=
  let line := fgetsLine (MAXLEN - 1) stdin
  if stdin = [] ∨ line.head? = some hash then none
  else some (line.takeWhile (· ≠ 0), stdin.drop line.length)

theorem request_shorter {stdin line rest : List UInt8} (h : request stdin = some (line, rest)) :
    rest.length < stdin.length := by
  unfold request at h
  dsimp only at h
  split at h
  · cases h
  · rename_i hgo
    rw [not_or] at hgo
    cases h
    have hpos := Placement.fgetsLine_pos (k := MAXLEN - 1) hgo.1 (by decide)
    have hlen := List.length_pos_iff.2 hgo.1
    rw [List.length_drop]
    omega

/-- What the lines of the input send, up to the line that leaves the loop. -/
def requests (stdin : List UInt8) : List (List UInt8) :=
  match _h : request stdin with
  | none => []
  | some (line, rest) => line :: requests rest
termination_by stdin.length
decreasing_by exact request_shorter _h

/-- Writes accept all bytes. -/
def full (s : State) : Act → Bool
  | .line write => (request s.stdin).all fun r => write = some r.1.length
  | .reply read write => read.all fun chunk => write = some chunk.length

variable {sockfd : ℕ} {stdin line rest : List UInt8} {s t : State}

theorem requests_of_none (h : request stdin = none) : requests stdin = [] := by
  unfold requests
  split
  · rfl
  · rename_i hsome
    rw [h] at hsome
    cases hsome

theorem requests_of_some (h : request stdin = some (line, rest)) :
    requests stdin = line :: requests rest := by
  rw [requests]
  split
  · rename_i hnone
    rw [h] at hnone
    cases hnone
  · rename_i hsome
    rw [h] at hsome
    cases hsome
    rfl

/-- What a step with full writes can do. -/
inductive Trans (sockfd : ℕ) (s : State) : State → Prop
  | leave (stdin : List UInt8) (sendbuf : Buffer) : s.phase = .typing →
      Trans sockfd s { s with stdin := stdin, sendbuf := sendbuf, phase := .left }
  | ask (line rest : List UInt8) (sendbuf : Buffer) : s.phase = .typing →
      request s.stdin = some (line, rest) →
      Trans sockfd s { s with
        stdin := rest
        sendbuf := sendbuf
        phase := .asked
        log := s.log ++ [⟨sockfd, .write, line⟩] }
  | failed : s.phase = .asked → Trans sockfd s { s with phase := .typing }
  | closed : s.phase = .asked → Trans sockfd s { s with phase := .left }
  | print (chunk : List UInt8) (recvbuf : Buffer) : s.phase = .asked →
      Trans sockfd s { s with
        recvbuf := recvbuf
        phase := .typing
        log := s.log ++ [⟨sockfd, .read, chunk⟩] ++ [⟨STDOUT_FILENO, .write, chunk⟩] }

theorem Trans.asked (ht : Trans sockfd s t) (hphase : t.phase = .asked) :
    ∃ line rest, s.phase = .typing ∧ request s.stdin = some (line, rest) ∧
      t.log = s.log ++ [⟨sockfd, .write, line⟩] := by
  cases ht with
  | ask line rest sendbuf htyping hrequest => exact ⟨line, rest, htyping, hrequest, rfl⟩
  | leave | failed | closed | print => cases hphase

theorem wrote_full {fd : ℕ} {bytes : List UInt8} (log : List (Transfer ℕ)) :
    wrote fd bytes log (some bytes.length) = some (log ++ [⟨fd, .write, bytes⟩]) := by
  unfold wrote
  dsimp only
  rw [if_neg (Nat.lt_irrefl _), List.take_length]

theorem sendLine_trans {write : Option ℕ} (hphase : s.phase = .typing)
    (hfull : full s (.line write) = true) (h : sendLine sockfd s write = some t) :
    Trans sockfd s t := by
  unfold sendLine fgets at h
  by_cases hend : s.stdin = []
  · rw [if_pos hend] at h
    cases h
    exact .leave s.stdin s.sendbuf hphase
  · rw [if_neg hend] at h
    dsimp only at h
    split at h
    · cases h
      exact .leave _ _ hphase
    · rename_i hhash
      have hpos := Placement.fgetsLine_pos (k := MAXLEN - 1) hend (by decide)
      have hlen := Placement.length_fgetsLine_le (MAXLEN - 1) s.stdin
      have hmax : 0 < MAXLEN := by decide
      have hrequest : request s.stdin =
          some ((fgetsLine (MAXLEN - 1) s.stdin).takeWhile (· ≠ 0),
            s.stdin.drop (fgetsLine (MAXLEN - 1) s.stdin).length) := by
        unfold request
        refine if_neg (not_or.2 ⟨hend, fun hhead => hhash ?_⟩)
        obtain ⟨cs, hcs⟩ := List.head?_eq_some_iff.1 hhead
        rw [hcs]
        have hlt : 0 < (hash :: cs ++ [0]).length := Nat.zero_lt_succ _
        exact Buffer.store_apply s.sendbuf 0 hlt
      rw [Placement.cstring_line (by omega), Option.bind_some] at h
      simp only [full, hrequest, Option.all_some, decide_eq_true_eq] at hfull
      rw [hfull, wrote_full] at h
      cases h
      exact .ask _ _ _ hphase hrequest

theorem printReply_trans {read : Option (List UInt8)} {write : Option ℕ}
    (hphase : s.phase = .asked) (hfull : full s (.reply read write) = true)
    (h : printReply sockfd s read write = some t) : Trans sockfd s t := by
  unfold printReply at h
  split at h
  · cases h
    exact .failed hphase
  · cases h
    exact .closed hphase
  · rename_i chunk hne
    split at h
    · cases h
    · simp only [full, Option.all_some, decide_eq_true_eq] at hfull
      dsimp only at h
      rw [Buffer.slice_store, hfull, wrote_full] at h
      cases h
      exact .print chunk _ hphase

theorem step_trans {a : Act} (hfull : full s a = true) (h : step sockfd s a = some t) :
    Trans sockfd s t := by
  cases a with
  | line write =>
      obtain ⟨hphase, h⟩ := (Option.ite_none_right_eq_some ..).1 h
      exact sendLine_trans hphase hfull h
  | reply read write =>
      obtain ⟨hphase, h⟩ := (Option.ite_none_right_eq_some ..).1 h
      exact printReply_trans hphase hfull h

/-- What was read from the socket is printed, and what was sent are the first requests. -/
structure Inv (sockfd : ℕ) (input : List UInt8) (s : State) : Prop where
  printed : sent s.log STDOUT_FILENO = received s.log sockfd
  asked : ∃ done rest, requests input = done ++ rest ∧ sent s.log sockfd = done.flatten ∧
    (s.phase ≠ .left → rest = requests s.stdin)

variable {input : List UInt8}

theorem Inv.initial (sockfd : ℕ) (input : List UInt8) :
    Inv sockfd input (client sockfd input).init :=
  ⟨rfl, [], requests input, rfl, rfl, fun _ => rfl⟩

theorem Inv.step (hsock : sockfd ≠ STDOUT_FILENO) (h : Inv sockfd input s)
    (ht : Trans sockfd s t) : Inv sockfd input t := by
  obtain ⟨hprinted, done, rest, hrequests, hsent, hrest⟩ := h
  cases ht with
  | leave | closed => exact ⟨hprinted, done, rest, hrequests, hsent, fun hleft => absurd rfl hleft⟩
  | failed hphase =>
      refine ⟨hprinted, done, rest, hrequests, hsent, fun _ => hrest ?_⟩
      rw [hphase]
      decide
  | ask line stdin sendbuf hphase hrequest =>
      have hnext : rest = line :: requests stdin := by
        rw [hrest (by rw [hphase]; decide), requests_of_some hrequest]
      refine ⟨?_, done ++ [line], requests stdin, ?_, ?_, fun _ => rfl⟩
      · dsimp only
        rw [Transfers.sent_append_of_ne _ _ _ _ _ hsock, Transfers.received_append_write]
        exact hprinted
      · rw [hrequests, hnext, List.append_assoc, List.singleton_append]
      · dsimp only
        rw [Transfers.sent_append_write, hsent, List.flatten_append, List.flatten_singleton]
  | print chunk recvbuf hphase =>
      refine ⟨?_, done, rest, hrequests, ?_, fun _ => hrest ?_⟩
      · dsimp only
        rw [Transfers.sent_append_write, Transfers.sent_append_read,
          Transfers.received_append_write, Transfers.received_append_read, hprinted]
      · dsimp only
        rw [Transfers.sent_append_of_ne _ _ _ _ _ hsock.symm, Transfers.sent_append_read]
        exact hsent
      · rw [hphase]
        decide

theorem fgetsLine_prefix (k : ℕ) (stdin : List UInt8) : fgetsLine k stdin <+: stdin := by
  induction k generalizing stdin with
  | zero => exact List.nil_prefix
  | succ k ih =>
      cases stdin with
      | nil => exact List.nil_prefix
      | cons c cs =>
          rw [fgetsLine]
          split
          · exact (List.prefix_cons_inj c).2 List.nil_prefix
          · exact (List.prefix_cons_inj c).2 (ih cs)

/-- Without a zero byte in the input every line is sent whole. -/
theorem request_text (hnul : 0 ∉ stdin) (h : request stdin = some (line, rest)) :
    line ≠ [] ∧ stdin = line ++ rest := by
  unfold request at h
  dsimp only at h
  split at h
  · cases h
  · rename_i hgo
    rw [not_or] at hgo
    cases h
    have hpre := fgetsLine_prefix (MAXLEN - 1) stdin
    have hwhole : (fgetsLine (MAXLEN - 1) stdin).takeWhile (· ≠ 0) =
        fgetsLine (MAXLEN - 1) stdin := by
      refine List.takeWhile_eq_self_iff.2 (fun x hx => ?_)
      rw [decide_eq_true_eq]
      rintro rfl
      exact hnul (hpre.subset hx)
    rw [hwhole]
    exact ⟨List.length_pos_iff.1 (Placement.fgetsLine_pos hgo.1 (by decide)),
      (List.prefix_iff_eq_append.1 hpre).symm⟩

theorem flatten_requests_prefix (hnul : 0 ∉ stdin) : (requests stdin).flatten <+: stdin := by
  induction stdin using requests.induct with
  | case1 stdin hnone =>
      rw [requests_of_none hnone]
      exact List.nil_prefix
  | case2 stdin line rest hsome ih =>
      have htext := (request_text hnul hsome).2
      rw [requests_of_some hsome, List.flatten_cons]
      rw [htext] at hnul ⊢
      exact (List.prefix_append_right_inj line).2
        (ih (fun hmem => hnul (List.mem_append_right _ hmem)))

theorem ne_nil_of_mem_requests (hnul : 0 ∉ stdin) : ∀ r ∈ requests stdin, r ≠ [] := by
  induction stdin using requests.induct with
  | case1 stdin hnone =>
      rw [requests_of_none hnone]
      exact List.forall_mem_nil _
  | case2 stdin line rest hsome ih =>
      obtain ⟨hline, htext⟩ := request_text hnul hsome
      rw [requests_of_some hsome, List.forall_mem_cons]
      exact ⟨hline, ih (fun hmem => hnul (htext ▸ List.mem_append_right _ hmem))⟩

theorem Inv.request_ne_nil (h : Inv sockfd input s) (hnul : 0 ∉ input)
    (hphase : s.phase = .typing) (hrequest : request s.stdin = some (line, rest)) : line ≠ [] := by
  obtain ⟨-, done, later, hrequests, -, hlater⟩ := h
  apply ne_nil_of_mem_requests hnul
  rw [hrequests, hlater (by rw [hphase]; decide), requests_of_some hrequest]
  exact List.mem_append_right _ List.mem_cons_self

end Londa.LongConnectionClient
