import Londa.Pair
import Londa.ViaEpollClient
import Londa.ViaEpollEcho

/-!
# The epoll client on the epoll server

The client is at the other end of connection `c` of the server, which may have any number of
other clients. The network delivers what was sent, in order and at any pace.
-/

namespace Londa.ViaEpollSystem

open Transfers (received sent Connected)
open ViaEpollClient (STDIN_FILENO STDOUT_FILENO held)

/-- The server with the client on its connection `c`. -/
def pair (listenfd sockfd : ℕ) (memory : Buffer) (c : ℕ) :
    Pair ViaEpoll.State ViaEpollClient.State ViaEpoll.Act ViaEpollClient.Act where
  left := ViaEpoll.server listenfd
  right := ViaEpollClient.client sockfd memory
  linked server client := decide (Connected server.log c client.log sockfd)

/-- Chunks are short and without a zero byte and writes accept everything; the server reads
from a client while it owes no other client an answer, and the client reads while its buffer
is clear. -/
def Orderly (listenfd : ℕ) (s : ViaEpoll.State × ViaEpollClient.State) :
    ViaEpoll.Act ⊕ ViaEpollClient.Act → Prop
  | .inl a => ViaEpoll.plain s.1 a ∧ ViaEpoll.ReadsAlone listenfd s.1 a
  | .inr a => ViaEpollClient.plain s.2 a ∧ ViaEpollClient.clear s.2 a

/-- The server waits for input on the connection, the network is empty, and so is the buffer
of the client. -/
structure Settled (listenfd sockfd c : ℕ) (s : ViaEpoll.State × ViaEpollClient.State) : Prop where
  waiting : ∃ fd, fd ≠ listenfd ∧ s.1.kernel.file fd = some c ∧
    s.1.kernel.interest fd = some ⟨Epoll.EPOLLIN, fd⟩
  delivered : received s.1.log c = sent s.2.log sockfd
  returned : received s.2.log sockfd = sent s.1.log c
  clear : held s.2 = 0

variable {listenfd sockfd c : ℕ} {memory : Buffer} {s : ViaEpoll.State × ViaEpollClient.State}

theorem echoes_of_reachable
    (h : (pair listenfd sockfd memory c).machine.ReachableBy (Orderly listenfd) s) :
    ViaEpoll.Echoes listenfd s.1 := by
  have hserver := Pair.left_reachableBy (D := fun s a => ViaEpoll.plain s a ∧
    ViaEpoll.ReadsAlone listenfd s a) (fun _ _ hc => hc) h
  have hecho : ViaEpoll.Echo s.1 := by
    apply hserver.invariant (I := ViaEpoll.Echo) (ViaEpoll.Echo.initial listenfd)
    intro s t a hr hi hc hst
    exact hi.step (ViaEpoll.inv_of_reachable hr.reachable) hc.1 hc.2 (ViaEpoll.step_trans hst)
  exact hecho.echoes (ViaEpoll.inv_of_reachable hserver.reachable)

theorem relays_of_reachable (hsock : 1 < sockfd)
    (h : (pair listenfd sockfd memory c).machine.ReachableBy (Orderly listenfd) s) :
    ViaEpollClient.Relays sockfd s.2 := by
  have hclient := Pair.right_reachableBy (D := fun s a => ViaEpollClient.plain s a ∧
    ViaEpollClient.clear s a) (fun _ _ hc => hc) h
  have hinv : ViaEpollClient.Inv sockfd s.2 := by
    refine hclient.invariant (ViaEpollClient.Inv.initial hsock memory) (fun _ hi hc hst => ?_)
    exact hi.step hsock hc.1 hc.2 (ViaEpollClient.step_trans hst)
  exact hinv.phase.relays

theorem connected_of_reachable
    (h : (pair listenfd sockfd memory c).machine.ReachableBy (Orderly listenfd) s) :
    Connected s.1.log c s.2.log sockfd := by
  have hstart : Connected ([] : List (Transfer ℕ)) c ([] : List (Transfer ℕ)) sockfd :=
    ⟨List.prefix_rfl, List.prefix_rfl⟩
  exact of_decide_eq_true (Pair.linked_of_reachableBy (decide_eq_true hstart) h)

/-- The client prints what it has read from standard input, in order and without anything
else, and all of it once the system has settled. -/
theorem printed_is_typed (hsock : 1 < sockfd)
    (h : (pair listenfd sockfd memory c).machine.ReachableBy (Orderly listenfd) s) :
    sent s.2.log STDOUT_FILENO <+: received s.2.log STDIN_FILENO ∧
      (Settled listenfd sockfd c s →
        sent s.2.log STDOUT_FILENO = received s.2.log STDIN_FILENO) := by
  obtain ⟨hpre, hall⟩ := echoes_of_reachable h
  obtain ⟨⟨hsent, hsentLen⟩, hprinted, hprintedLen⟩ := relays_of_reachable hsock h
  obtain ⟨hserver, hclient⟩ := connected_of_reachable h
  have htyped := hprinted.trans (hclient.trans ((hpre c).trans (hserver.trans hsent)))
  refine ⟨htyped, fun hsettled => ?_⟩
  obtain ⟨fd, hfd, hfile, hinterest⟩ := hsettled.waiting
  have hecho := hall fd c hfd hfile hinterest
  have hlen : (received s.2.log STDIN_FILENO).length ≤ (sent s.2.log STDOUT_FILENO).length := by
    rw [hsettled.clear] at hsentLen hprintedLen
    rw [hsettled.returned, hecho, hsettled.delivered] at hprintedLen
    omega
  exact htyped.eq_of_length (le_antisymm htyped.length_le hlen)

/-- The line `"ab"` is sent, echoed and printed. -/
def oneLine : List (ViaEpoll.Act ⊕ ViaEpollClient.Act) :=
  [.inr (.wait [(0, Epoll.EPOLLIN)]), .inr (.handle ⟨some [97, 98], none, []⟩),
    .inr (.wait [(3, Epoll.EPOLLOUT)]), .inr (.handle ⟨none, some 2, []⟩),
    .inl (.wait [(3, Epoll.EPOLLIN)]), .inl (.handle ⟨some 5, none, none, []⟩),
    .inl (.wait [(5, Epoll.EPOLLIN)]), .inl (.handle ⟨none, some [97, 98], none, []⟩),
    .inl (.wait [(5, Epoll.EPOLLOUT)]), .inl (.handle ⟨none, none, some 2, []⟩),
    .inr (.wait [(3, Epoll.EPOLLIN)]), .inr (.handle ⟨some [97, 98], none, []⟩),
    .inr (.wait [(1, Epoll.EPOLLOUT)]), .inr (.handle ⟨none, some 2, []⟩)]

/-- Nothing is unsent before the first transfer of the server. -/
def checked (s : ViaEpoll.State × ViaEpollClient.State) :
    ViaEpoll.Act ⊕ ViaEpollClient.Act → Bool
  | .inl (.wait ready) => ViaEpoll.plain s.1 (.wait ready)
  | .inl (.handle a) => ViaEpoll.plain s.1 (.handle a) && (a.read.isNone || s.1.log.isEmpty)
  | .inr a => ViaEpollClient.plain s.2 a && ViaEpollClient.clear s.2 a

theorem printed_is_typed_oneLine : ∃ s,
    (pair 3 3 Buffer.zero 1).machine.ReachableBy (Orderly 3) s ∧ Settled 3 3 1 s ∧
      received s.2.log STDIN_FILENO = [97, 98] ∧
      sent s.2.log STDOUT_FILENO <+: received s.2.log STDIN_FILENO ∧
      sent s.2.log STDOUT_FILENO = received s.2.log STDIN_FILENO := by
  have hrun : ((pair 3 3 Buffer.zero 1).machine.checkedFrom checked
      (pair 3 3 Buffer.zero 1).machine.init oneLine).map
      (fun s => decide (s.1.kernel.file 5 = some 1 ∧
        s.1.kernel.interest 5 = some ⟨Epoll.EPOLLIN, 5⟩ ∧
        received s.1.log 1 = sent s.2.log 3 ∧ received s.2.log 3 = sent s.1.log 1 ∧
        held s.2 = 0 ∧ received s.2.log STDIN_FILENO = [97, 98])) = some true := by
    decide +kernel
  obtain ⟨s, hs, hview⟩ := Machine.reachableBy_of_checked hrun
  obtain ⟨hfile, hinterest, hdelivered, hreturned, hclear, htyped⟩ := of_decide_eq_true hview
  have hs' : (pair 3 3 Buffer.zero 1).machine.ReachableBy (Orderly 3) s := by
    refine hs.mono_reachable (fun s a hr hc => ?_)
    have hserver := Pair.left_reachableBy (D := fun _ _ => True) (fun _ _ _ => trivial) hr
    match a with
    | .inl (.wait ready) => exact ⟨hc, trivial⟩
    | .inl (.handle a) =>
        obtain ⟨hplain, hread⟩ := Bool.and_eq_true_iff.1 hc
        refine ⟨hplain, ?_⟩
        rcases Bool.or_eq_true_iff.1 hread with hnone | hlog
        · intro e es chunk _ _ _ hchunk
          rw [hchunk] at hnone
          cases hnone
        · exact ViaEpoll.readsAlone_of_log hserver (List.isEmpty_iff.1 hlog)
    | .inr a => exact Bool.and_eq_true_iff.1 hc
  have hsettled : Settled 3 3 1 s :=
    ⟨⟨5, by decide, hfile, hinterest⟩, hdelivered, hreturned, hclear⟩
  obtain ⟨hpre, hall⟩ := printed_is_typed (by decide) hs'
  exact ⟨s, hs', hsettled, htyped, hpre, hall hsettled⟩

end Londa.ViaEpollSystem
