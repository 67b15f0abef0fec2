import Londa.LongConnectionClient
import Londa.LongConnectionRelay
import Londa.Pair

/-!
# The client on the edge-triggered echo server

The client is at the other end of connection `c` of the server, which may have any number of
other clients, and the network delivers what was sent, in order and at any pace. The client
reads once for each line, so that it may print an answer in later turns than the one that asked
for it; it never waits for an answer that does not come.
-/

namespace Londa.LongConnectionSystem

open Epoll (EPOLLIN EPOLLET)
open LongConnection (transfers)
open LongConnectionClient (STDOUT_FILENO full requests)
open Transfers (received sent Connected)

def pair (listen_sock : LongConnection.Fd) (word : BitVec 64) (sockfd : ℕ) (stdin : List UInt8)
    (c : ℕ) : Pair LongConnection.State LongConnectionClient.State LongConnection.Act
      LongConnectionClient.Act where
  left := LongConnection.server listen_sock word
  right := LongConnectionClient.client sockfd stdin
  linked server client :=
    decide (Connected (transfers listen_sock server) c client.log sockfd)

/-- The writes of the client accept all bytes. -/
def Full (s : LongConnection.State × LongConnectionClient.State) :
    LongConnection.Act ⊕ LongConnectionClient.Act → Prop
  | .inl _ => True
  | .inr a => full s.2 a = true

/-- The server waits for input on the connection, and the network is empty. -/
structure Settled (listen_sock : LongConnection.Fd) (sockfd c : ℕ)
    (s : LongConnection.State × LongConnectionClient.State) : Prop where
  waiting : ∃ fd d, fd ≠ listen_sock ∧ s.1.kernel.file fd = some c ∧
    s.1.kernel.interest fd = some ⟨EPOLLIN ||| EPOLLET, d⟩
  delivered : received (transfers listen_sock s.1) c = sent s.2.log sockfd
  returned : received s.2.log sockfd = sent (transfers listen_sock s.1) c

variable {listen_sock : LongConnection.Fd} {word : BitVec 64} {sockfd c : ℕ}
  {stdin : List UInt8} {s t : LongConnection.State × LongConnectionClient.State}

theorem inv_of_reachable (hsock : sockfd ≠ STDOUT_FILENO)
    (h : (pair listen_sock word sockfd stdin c).machine.ReachableBy Full s) :
    LongConnectionClient.Inv sockfd stdin s.2 := by
  have hclient := Pair.right_reachableBy (D := fun s a => full s a = true) (fun _ _ hc => hc) h
  refine hclient.invariant (LongConnectionClient.Inv.initial sockfd stdin) (fun _ hi hc hst => ?_)
  exact hi.step hsock (LongConnectionClient.step_trans hc hst)

theorem connected_of_reachable
    (h : (pair listen_sock word sockfd stdin c).machine.ReachableBy Full s) :
    Connected (transfers listen_sock s.1) c s.2.log sockfd := by
  have hstart : Connected ([] : List (Transfer ℕ)) c ([] : List (Transfer ℕ)) sockfd :=
    ⟨List.prefix_rfl, List.prefix_rfl⟩
  exact of_decide_eq_true (Pair.linked_of_reachableBy (decide_eq_true hstart) h)

/-- The server has got no zero byte from a client that has none in its input. -/
theorem text_of_reachable (hsock : sockfd ≠ STDOUT_FILENO) (hnul : 0 ∉ stdin)
    (h : (pair listen_sock word sockfd stdin c).machine.ReachableBy Full s) :
    0 ∉ received (transfers listen_sock s.1) c := by
  obtain ⟨done, rest, hrequests, hsent, -⟩ := (inv_of_reachable hsock h).asked
  have hsend : sent s.2.log sockfd <+: stdin := by
    rw [hsent]
    refine List.IsPrefix.trans ?_ (LongConnectionClient.flatten_requests_prefix hnul)
    rw [hrequests, List.flatten_append]
    exact List.prefix_append _ _
  exact fun hmem => hnul (hsend.subset ((connected_of_reachable h).1.subset hmem))

theorem relays_of_reachable
    (h : (pair listen_sock word sockfd stdin c).machine.ReachableBy Full s) :
    LongConnection.Relays listen_sock s.1 := by
  have hserver := Pair.left_reachableBy (D := fun _ _ => True) (fun _ _ _ => trivial) h
  exact LongConnection.relays_of_reachable hserver

/-- The client has read no more than it has sent. -/
theorem answers_sent (hsock : sockfd ≠ STDOUT_FILENO) (hnul : 0 ∉ stdin)
    (h : (pair listen_sock word sockfd stdin c).machine.ReachableBy Full s) :
    received s.2.log sockfd <+: sent s.2.log sockfd := by
  obtain ⟨hserver, hclient⟩ := connected_of_reachable h
  have hback := (relays_of_reachable h).returned c (text_of_reachable hsock hnul h)
  exact hclient.trans (hback.trans hserver)

/-- A client that waits for an answer has sent more than it has got back. -/
theorem unanswered (hsock : sockfd ≠ STDOUT_FILENO) (hnul : 0 ∉ stdin)
    (h : (pair listen_sock word sockfd stdin c).machine.ReachableBy Full s) :
    s.2.phase = .asked → (received s.2.log sockfd).length < (sent s.2.log sockfd).length := by
  refine h.invariant (I := fun s => s.2.phase = .asked →
    (received s.2.log sockfd).length < (sent s.2.log sockfd).length) nofun ?_
  rintro s t (a | a) hr hi hc hst hphase
  · rw [(Pair.step_left hst).2.1] at hphase ⊢
    exact hi hphase
  · have hlen := (answers_sent hsock hnul hr).length_le
    obtain ⟨line, rest, htyping, hrequest, hlog⟩ :=
      (LongConnectionClient.step_trans hc (Pair.step_right hst).1).asked hphase
    have hline := (inv_of_reachable hsock hr).request_ne_nil hnul htyping hrequest
    have hpos := List.length_pos_iff.2 hline
    rw [hlog, Transfers.received_append_write, Transfers.sent_append_write, List.length_append]
    omega

/-- What the client prints is the beginning of what its input asks for. In a settled system it
has printed the answers to all it has asked so far, and does not wait for another one. -/
theorem printed_is_asked (hsock : sockfd ≠ STDOUT_FILENO) (hnul : 0 ∉ stdin)
    (h : (pair listen_sock word sockfd stdin c).machine.ReachableBy Full s) :
    sent s.2.log STDOUT_FILENO <+: (requests stdin).flatten ∧
      (Settled listen_sock sockfd c s →
        s.2.phase ≠ .asked ∧ sent s.2.log STDOUT_FILENO = sent s.2.log sockfd) := by
  obtain ⟨hprinted, done, rest, hrequests, hsent, -⟩ := inv_of_reachable hsock h
  have hanswers := answers_sent hsock hnul h
  rw [hprinted]
  refine ⟨hanswers.trans ?_, fun hsettled => ?_⟩
  · rw [hsent, hrequests, List.flatten_append]
    exact List.prefix_append _ _
  · obtain ⟨fd, d, hfd, hfile, hinterest⟩ := hsettled.waiting
    have hall : received s.2.log sockfd = sent s.2.log sockfd := by
      have howes := (relays_of_reachable h).owes fd c hfd hfile (text_of_reachable hsock hnul h)
      rw [hsettled.returned, ← hsettled.delivered]
      exact howes.eq_of_waiting hinterest
    refine ⟨fun hphase => ?_, hall⟩
    have hless := unanswered hsock hnul h hphase
    rw [hall] at hless
    exact Nat.lt_irrefl _ hless

/-- The lines `"ab"` and `"#"` are the input: the first is sent, echoed and printed. -/
def oneLine : List (LongConnection.Act ⊕ LongConnectionClient.Act) :=
  [.inr (.line (some 3)), .inl (.wait [(3, EPOLLIN)]), .inl (.handle ⟨some 5, 0, 0, [], []⟩),
    .inl (.wait [(5, EPOLLIN)]),
    .inl (.handle ⟨none, 0x7f0000001000, 0x7f0000002000, [.bytes [97, 98, 10], .eagain], []⟩),
    .inl (.wait [(5, Epoll.EPOLLOUT)]), .inl (.handle ⟨none, 0, 0, [], [.wrote 1, .wrote 2]⟩),
    .inr (.reply (some [97, 98, 10]) (some 3))]

def checked (s : LongConnection.State × LongConnectionClient.State) :
    LongConnection.Act ⊕ LongConnectionClient.Act → Bool
  | .inl _ => true
  | .inr a => full s.2 a

theorem printed_is_asked_oneLine : ∃ s,
    (pair 3 0 3 [97, 98, 10, 35, 10] 1).machine.ReachableBy Full s ∧ Settled 3 3 1 s ∧
      sent s.2.log STDOUT_FILENO = [97, 98, 10] ∧ s.2.phase ≠ .asked ∧
      sent s.2.log STDOUT_FILENO = sent s.2.log 3 := by
  have hrun : ((pair 3 0 3 [97, 98, 10, 35, 10] 1).machine.checkedFrom checked
      (pair 3 0 3 [97, 98, 10, 35, 10] 1).machine.init oneLine).map
      (fun s => ((s.1.kernel.file 5, (s.1.kernel.interest 5).map Epoll.Registration.events),
        (received (transfers 3 s.1) 1, sent (transfers 3 s.1) 1),
        (received s.2.log 3, sent s.2.log 3), sent s.2.log STDOUT_FILENO)) =
        some ((some 1, some (EPOLLIN ||| EPOLLET)), ([97, 98, 10], [97, 98, 10]),
          ([97, 98, 10], [97, 98, 10]), [97, 98, 10]) := by decide +kernel
  obtain ⟨s, hs, hview⟩ := Machine.reachableBy_of_checked hrun
  simp only [Prod.mk.injEq] at hview
  obtain ⟨⟨hfile, hevents⟩, ⟨hserver, hserver'⟩, ⟨hclient, hclient'⟩, hshown⟩ := hview
  obtain ⟨⟨events, d⟩, hinterest, hin⟩ := Option.map_eq_some_iff.1 hevents
  cases hin
  have hs' : (pair 3 0 3 [97, 98, 10, 35, 10] 1).machine.ReachableBy Full s := by
    refine hs.mono ?_
    rintro s (a | a) hc
    · trivial
    · exact hc
  have hsettled : Settled 3 3 1 s := by
    refine ⟨⟨5, d, by decide, hfile, hinterest⟩, ?_, ?_⟩
    · rw [hserver, hclient']
    · rw [hclient, hserver']
  exact ⟨s, hs', hsettled, hshown, (printed_is_asked (by decide) (by decide) hs').2 hsettled⟩

end Londa.LongConnectionSystem
