import Londa.Machine
import Londa.SlotTable
import Londa.Buffer
import Londa.Transfers

/-!
# The select echo server

Model of `handle_client_proc` and its handlers in
`code/network/IO/multiplexing/via_select/server.cpp`. A step is one iteration of
the loop: the select set is built from the client table, `select` answers, and
either a client is accepted or the ready clients are served. `readfds` is an alias
of `allfds`, so one set stands for both. The table is indexed below `SIZE`; a read
past its end is taken for an empty slot, and `indices` records every index with
which the two loops read the table. `cli_cnt` is not bounded by the model.

The kernel answers the calls: the ready descriptors, the results of `accept` (any
number of `EINTR` before the last), what the `read` on the client in a slot finds,
of which it returns at most `MAXLINE` bytes, and, where the buffer holds no zero
byte, the bytes behind it up to the first one there.
-/

namespace Londa.ViaSelect

def MAXLINE : ℕ := 1024

def SIZE : ℕ := 10

structure ServerContext where
  cli_cnt : ℤ
  clifds : Fin SIZE → ℤ
  allfds : Finset ℤ
  maxfd : ℤ

structure State where
  ctx : ServerContext
  opened : Finset ℤ
  log : List (Transfer ℤ)
  indices : List ℕ
  running : Bool

inductive AcceptResult
  | eintr
  | error
  | client (fd : ℤ)

inductive ReadResult
  | error
  | data (bytes : List UInt8)

inductive Act
  | selectError
  | timeout
  | ready (fds : Finset ℤ) (accepts : List AcceptResult) (reads : ℕ → ReadResult)
      (behind : List UInt8)

/-- An entry of `clifds` counts as a client when it is not negative. -/
def isClient (fd : ℤ) : Bool := decide (0 ≤ fd)

def ServerContext.clifd (ctx : ServerContext) (i : ℕ) : ℤ :=
  if h : i < SIZE then ctx.clifds ⟨i, h⟩ else -1

def State.touch (s : State) (i : ℕ) : State := { s with indices := s.indices ++ [i] }

/-- The `goto ACCEPT` loop; `some none` is a failure other than `EINTR`. -/
def acceptLoop : List AcceptResult → Option (Option ℤ)
  | [] => none
  | .eintr :: rest => acceptLoop rest
  | .error :: _ => some none
  | .client fd :: _ => some (some fd)

def acceptClientProc (s : State) (accepts : List AcceptResult) : Option (State × ℤ) :=
  match acceptLoop accepts with
  | none => none
  | some none => some (s, -1)
  | some (some clifd) =>
      if 0 ≤ clifd ∧ clifd ∉ s.opened then
        let s := { s with opened := insert clifd s.opened }
        match SlotTable.firstFree isClient s.ctx.clifds with
        | some i =>
            some ({ s with ctx := { s.ctx with
              clifds := Function.update s.ctx.clifds i clifd
              cli_cnt := s.ctx.cli_cnt + 1 } }, 0)
        | none => some (s, -1)
      else none

/-- The bytes of `write(fd, buf, strlen(buf) + 1)`. -/
def echoed (buf : Buffer) (behind : List UInt8) : List UInt8 :=
  match buf.strlen MAXLINE with
  | some n => buf.slice 0 (n + 1)
  | none => buf.slice 0 MAXLINE ++ behind ++ [0]

def handleClientMsg (s : State) (fd : ℤ) (buf : Buffer) (behind : List UInt8) : State :=
  { s with log := s.log ++ [⟨fd, .write, echoed buf behind⟩] }

/-- The branch `n <= 0`: the slot is freed and `cli_cnt` is left as it is. -/
def dropClient (s : State) (i : ℕ) (clifd : ℤ) : State :=
  { s with
    opened := s.opened.erase clifd
    ctx := { s.ctx with
      allfds := s.ctx.allfds.erase clifd
      clifds := fun j => if (j : ℕ) = i then -1 else s.ctx.clifds j } }

/-- One iteration of the loop of `recv_client_msg`. -/
def recvSlot (reads : ℕ → ReadResult) (behind : List UInt8) (sb : State × Buffer) (i : ℕ) :
    State × Buffer :=
  let s := sb.1.touch i
  let clifd := s.ctx.clifd i
  if clifd < 0 then (s, sb.2)
  else if clifd ∈ s.ctx.allfds then
    match reads i with
    | .error => (dropClient s i clifd, sb.2)
    | .data [] => (dropClient s i clifd, sb.2)
    | .data bytes =>
        let chunk := bytes.take MAXLINE
        let buf := sb.2.store 0 chunk
        let s := { s with log := s.log ++ [⟨clifd, .read, chunk⟩] }
        (handleClientMsg s clifd buf behind, buf)
  else (s, sb.2)

def recvClientMsg (s : State) (reads : ℕ → ReadResult) (behind : List UInt8) : State :=
  ((List.range (s.ctx.cli_cnt + 1).toNat).foldl (recvSlot reads behind) (s, Buffer.zero)).1

/-- One iteration of the loop that builds the select set. -/
def watchSlot (s : State) (i : ℕ) : State :=
  let s := s.touch i
  let clifd := s.ctx.clifd i
  { s with ctx := { s.ctx with
    allfds := if clifd = -1 then s.ctx.allfds else insert clifd s.ctx.allfds
    maxfd := if s.ctx.maxfd < clifd then clifd else s.ctx.maxfd } }

def setUp (srvfd : ℤ) (s : State) : State :=
  (List.range s.ctx.cli_cnt.toNat).foldl watchSlot
    { s with ctx := { s.ctx with allfds := {srvfd}, maxfd := srvfd } }

def State.select (s : State) (fds : Finset ℤ) : State :=
  { s with ctx := { s.ctx with allfds := fds } }

/-- One iteration of the loop of `handle_client_proc`. -/
def step (srvfd : ℤ) (s : State) (a : Act) : Option State :=
  if s.running then
    let s := setUp srvfd s
    match a with
    | .selectError => some { s with running := false }
    | .timeout => some (s.select ∅)
    | .ready fds accepts reads behind =>
        if fds ⊆ s.ctx.allfds ∧ fds.Nonempty then
          if srvfd ∈ fds then (acceptClientProc (s.select fds) accepts).map Prod.fst
          else some (recvClientMsg (s.select fds) reads behind)
        else none
  else none

/-- `server_init`. -/
def start (srvfd : ℤ) : State where
  ctx := { cli_cnt := 0, clifds := fun _ => -1, allfds := ∅, maxfd := 0 }
  opened := {srvfd}
  log := []
  indices := []
  running := true

def server (srvfd : ℤ) : Machine State Act where
  init := start srvfd
  step := step srvfd

end Londa.ViaSelect
