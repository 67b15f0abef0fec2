import Londa.Connection
import Mathlib.Logic.Function.Basic

/-!
# The stock quote server and its clients

The server accepts one connection after the other and writes the list of stocks to each. A
client tries the endpoints of the server in turn until it is connected, reads one message,
prints it or the error, and exits. Connections are written and read independently; an error
of `accept` ends the accepting but not the connections that are being served.
-/

namespace Londa.S11nExample

open Connection (Inbound Outcome)

inductive Output (T E : Type*)
  | printed (t : T)
  | connectError (e : E)
  | readError (o : Outcome T E)
  deriving DecidableEq

inductive Client (T E P : Type*)
  | connecting (current : P) (left : List P)
  | reading (inbound : Inbound)
  | exited (output : Output T E)
  deriving DecidableEq

/-- The bytes on the way to a client are there once the server has accepted it; `ended` is
what the client finds behind them. -/
structure State (ι T E P : Type*) where
  accepting : Bool
  cerr : List E
  backlog : List ι
  client : ι → Client T E P
  tried : ι → List P
  wire : ι → Option (List UInt8)
  ended : ι → Option E

inductive Act (ι E : Type*)
  | connect (i : ι) (error : Option E)
  | accept
  | acceptError (e : E)
  | fail (i : ι) (e : E) (kept : ℕ)
  | deliver (i : ι) (n : ℕ)
  | eof (i : ι)

/-- The stocks, the error code of the end of a stream, and the endpoints each client gets
from the resolver, of which there is at least one. -/
structure Config (ι T E P : Type*) where
  stocks : T
  eof : E
  endpoint : ι → P
  endpoints : ι → List P

section Functions

variable {ι T E P : Type*} (A : Archive T) (cfg : Config ι T E P)

def init : State ι T E P where
  accepting := true
  cerr := []
  backlog := []
  client i := .connecting (cfg.endpoint i) (cfg.endpoints i)
  tried _ := []
  wire _ := none
  ended _ := none

section Step

variable [DecidableEq ι]

def State.goto (s : State ι T E P) (i : ι) (c : Client T E P) : State ι T E P :=
  { s with client := Function.update s.client i c }

/-- `client::handle_connect` -/
def handleConnect (s : State ι T E P) (i : ι) (current : P) (left : List P) :
    Option E → State ι T E P
  | none => { s.goto i (.reading (.header [])) with
      tried := Function.update s.tried i (s.tried i ++ [current])
      backlog := s.backlog ++ [i] }
  | some e =>
      let s := { s with tried := Function.update s.tried i (s.tried i ++ [current]) }
      match left with
      | next :: left => s.goto i (.connecting next left)
      | [] => s.goto i (.exited (.connectError e))

/-- `server::handle_accept` without an error: the socket is closed behind what is written,
as nobody keeps the connection. -/
def handleAccept (s : State ι T E P) (i : ι) (rest : List ι) : State ι T E P :=
  if (s.ended i).isSome then { s with backlog := rest }
  else { s with
    backlog := rest
    wire := Function.update s.wire i (some ((Connection.asyncWrite A cfg.stocks).getD []))
    ended := Function.update s.ended i (some cfg.eof) }

/-- `client::handle_read` -/
def handleRead : Outcome T E → Output T E
  | .ok t => .printed t
  | o => .readError o

def afterPiece : Inbound ⊕ Outcome T E → Client T E P
  | .inl inbound => .reading inbound
  | .inr o => .exited (handleRead o)

def step (s : State ι T E P) : Act ι E → Option (State ι T E P)
  | .connect i error =>
      match s.client i with
      | .connecting current left => some (handleConnect s i current left error)
      | _ => none
  | .accept =>
      match s.backlog with
      | i :: rest => if s.accepting then some (handleAccept A cfg s i rest) else none
      | [] => none
  | .acceptError e =>
      if s.accepting then some { s with accepting := false, cerr := s.cerr ++ [e] } else none
  | .fail i e kept =>
      match s.client i with
      | .reading _ => some { s with
          wire := Function.update s.wire i (some (((s.wire i).getD []).take kept))
          ended := Function.update s.ended i (some e) }
      | _ => none
  | .deliver i n =>
      match s.client i, s.wire i with
      | .reading inbound, some bytes =>
          if 0 < n ∧ n ≤ inbound.room ∧ n ≤ bytes.length then
            let s := { s with wire := Function.update s.wire i (some (bytes.drop n)) }
            some (s.goto i (afterPiece (Connection.receive A (bytes.take n) inbound)))
          else none
      | _, _ => none
  | .eof i =>
      match s.client i, s.wire i, s.ended i with
      | .reading _, some [], some e => some (s.goto i (.exited (.readError (.error (.socket e)))))
      | _, _, _ => none

def machine : Machine (State ι T E P) (Act ι E) := ⟨init cfg, step A cfg⟩

/-- Neither the server nor a client nor the network has anything left to do. -/
def Quiet (s : State ι T E P) : Prop :=
  (∀ i error, step A cfg s (.connect i error) = none) ∧ step A cfg s .accept = none ∧
    ∀ i, (∀ n, step A cfg s (.deliver i n) = none) ∧ step A cfg s (.eof i) = none

end Step

/-- Every step but the loss of a connection. -/
def unbroken (_ : State ι T E P) : Act ι E → Bool
  | .fail _ _ _ => false
  | _ => true

/-- The messages that a connection carries. -/
def offered : List T := if (Connection.asyncWrite A cfg.stocks).isSome then [cfg.stocks] else []

/-- What is true of a client at each stage; with `kept` nothing written has been lost. -/
def Served (kept : Prop) (s : State ι T E P) (i : ι) : Client T E P → Prop
  | .connecting current left => s.wire i = none ∧ s.ended i = none ∧ i ∉ s.backlog ∧
      s.tried i ++ current :: left = cfg.endpoint i :: cfg.endpoints i
  | .reading inbound => s.tried i <+: cfg.endpoint i :: cfg.endpoints i ∧
      ((s.wire i = none ∧ s.ended i = none ∧ i ∈ s.backlog ∧ inbound = .header []) ∨
        ∃ bytes lost e, s.wire i = some bytes ∧ s.ended i = some e ∧
          Connection.ToCome A inbound (bytes ++ lost) (offered A cfg) ∧
            (kept → lost = [] ∧ e = cfg.eof))
  | .exited (.printed t) => s.tried i <+: cfg.endpoint i :: cfg.endpoints i ∧
      (s.ended i).isSome ∧ offered A cfg = [t]
  | .exited (.connectError _) => i ∉ s.backlog ∧ s.tried i = cfg.endpoint i :: cfg.endpoints i
  | .exited (.readError o) => s.tried i <+: cfg.endpoint i :: cfg.endpoints i ∧
      ∃ e, s.ended i = some e ∧ o = .error (.socket e) ∧
        (kept → e = cfg.eof ∧ offered A cfg = [])

variable {A} {cfg} {kept : Prop} {s s' : State ι T E P} {a : Act ι E} {i j : ι}

theorem frames_offered :
    Connection.frames A (offered A cfg) = (Connection.asyncWrite A cfg.stocks).getD [] := by
  unfold offered Connection.frames
  cases h : Connection.asyncWrite A cfg.stocks <;> simp [h]

theorem sendable_offered : ∀ t ∈ offered A cfg, (Connection.asyncWrite A t).isSome := by
  intro t ht
  unfold offered at ht
  split_ifs at ht with h
  · rwa [List.mem_singleton.1 ht]
  · cases ht

/-- A step of another client, or one that this client does not notice. -/
theorem Served.congr {c : Client T E P} (h : Served A cfg kept s i c) (hwire : s'.wire i = s.wire i)
    (hended : s'.ended i = s.ended i) (htried : s'.tried i = s.tried i)
    (hbacklog : i ∈ s'.backlog ↔ i ∈ s.backlog) : Served A cfg kept s' i c := by
  unfold Served at *
  rw [hwire, hended, htried, hbacklog]
  exact h

/-- Every client is served as its stage requires. -/
def Inv (A : Archive T) (cfg : Config ι T E P) (kept : Prop) (s : State ι T E P) : Prop :=
  ∀ i, Served A cfg kept s i (s.client i)

/-- A connection that has ended does not wait for the server. -/
theorem Served.leave {c : Client T E P} {rest : List ι} (h : Served A cfg kept s i c)
    (hended : (s.ended i).isSome) (hsub : i ∈ rest → i ∈ s.backlog) :
    Served A cfg kept { s with backlog := rest } i c := by
  match c with
  | .connecting current left => exact ⟨h.1, h.2.1, fun hin => h.2.2.1 (hsub hin), h.2.2.2⟩
  | .reading inbound =>
      refine ⟨h.1, h.2.imp (fun hwait => ?_) id⟩
      rw [hwait.2.1] at hended
      cases hended
  | .exited (.printed t) => exact h
  | .exited (.connectError e) => exact ⟨fun hin => h.1 (hsub hin), h.2⟩
  | .exited (.readError o) => exact h

theorem toCome_offered :
    Connection.ToCome A (.header []) ((Connection.asyncWrite A cfg.stocks).getD [])
      (offered A cfg) := ⟨by decide, frames_offered.symm⟩

theorem eq_singleton_of_offered {t : T} {ts : List T} (h : offered A cfg = t :: ts) :
    offered A cfg = [t] := by
  unfold offered at h ⊢
  split_ifs at h ⊢
  cases h
  rfl

theorem offered_eq_nil_of_toCome {inbound : Inbound}
    (h : Connection.ToCome A inbound [] (offered A cfg)) : offered A cfg = [] := by
  match ho : offered A cfg with
  | [] => rfl
  | t :: ts =>
      have hs : ∀ u ∈ offered A cfg, (Connection.asyncWrite A u).isSome := sendable_offered
      rw [ho] at h hs
      exact absurd (h.lt_length hs) (Nat.not_lt_zero _)

variable [DecidableEq ι]

theorem Inv.connect (h : Inv A cfg kept s) {current : P} {left : List P} (error : Option E)
    (hi : s.client i = .connecting current left) :
    Inv A cfg kept (handleConnect s i current left error) := by
  have hserved := h i
  rw [hi] at hserved
  obtain ⟨hwire, hended, hout, htried⟩ := hserved
  have hpre : s.tried i ++ [current] <+: cfg.endpoint i :: cfg.endpoints i :=
    ⟨left, by rw [List.append_assoc]; exact htried⟩
  intro j
  by_cases hj : j = i
  · subst j
    cases error with
    | none =>
        simp only [handleConnect, State.goto, Function.update_self]
        exact ⟨by simpa using hpre, Or.inl ⟨hwire, hended, by simp, rfl⟩⟩
    | some e =>
        cases left with
        | nil =>
            simp only [handleConnect, State.goto, Function.update_self]
            exact ⟨hout, by simpa using htried⟩
        | cons next left =>
            simp only [handleConnect, State.goto, Function.update_self]
            exact ⟨hwire, hended, hout, by simpa using htried⟩
  · have hserved := h j
    cases error with
    | none =>
        simp only [handleConnect, State.goto, Function.update_of_ne hj]
        exact hserved.congr rfl rfl (by simp [hj]) (by simp [hj])
    | some e =>
        cases left <;> simp only [handleConnect, State.goto, Function.update_of_ne hj] <;>
          exact hserved.congr rfl rfl (by simp [hj]) Iff.rfl

theorem Inv.accept (h : Inv A cfg kept s) {rest : List ι} (hback : s.backlog = i :: rest) :
    Inv A cfg kept (handleAccept A cfg s i rest) := by
  have hin : i ∈ s.backlog := hback ▸ List.mem_cons_self
  intro j
  by_cases hj : j = i
  · subst j
    have hserved := h i
    unfold handleAccept
    split_ifs with hended
    · exact hserved.leave hended fun hrest => hback ▸ List.mem_cons_of_mem i hrest
    · have hnone : s.ended i = none := by simpa using hended
      show Served A cfg kept _ i (s.client i)
      match hc : s.client i with
      | .connecting current left =>
          rw [hc] at hserved
          exact absurd hin hserved.2.2.1
      | .reading inbound =>
          rw [hc] at hserved
          obtain ⟨htried, ⟨-, -, -, rfl⟩ | ⟨_, _, e, -, he, -⟩⟩ := hserved
          · refine ⟨htried, Or.inr ⟨_, [], cfg.eof, Function.update_self ..,
              Function.update_self .., ?_, fun _ => ⟨rfl, rfl⟩⟩⟩
            rw [List.append_nil]
            exact toCome_offered
          · cases hnone.symm.trans he
      | .exited (.printed t) =>
          rw [hc] at hserved
          exact absurd hserved.2.1 hended
      | .exited (.connectError e) =>
          rw [hc] at hserved
          exact absurd hin hserved.1
      | .exited (.readError o) =>
          rw [hc] at hserved
          obtain ⟨-, e, he, -⟩ := hserved
          cases hnone.symm.trans he
  · unfold handleAccept
    split_ifs
    · exact (h j).congr rfl rfl rfl (by simp [hback, hj])
    · exact (h j).congr (by simp [hj]) (by simp [hj]) rfl (by simp [hback, hj])

theorem Inv.fail (h : Inv A cfg False s) {inbound : Inbound} (e : E) (n : ℕ)
    (hi : s.client i = .reading inbound) : Inv A cfg False { s with
      wire := Function.update s.wire i (some (((s.wire i).getD []).take n))
      ended := Function.update s.ended i (some e) } := by
  intro j
  by_cases hj : j = i
  · subst j
    have hserved := h i
    show Served A cfg False _ i (s.client i)
    rw [hi] at hserved ⊢
    obtain ⟨htried, ⟨hwire, -, -, rfl⟩ | ⟨bytes, lost, -, hwire, -, htc, -⟩⟩ := hserved
    · refine ⟨htried, Or.inr ⟨_, (Connection.asyncWrite A cfg.stocks).getD [], e,
        Function.update_self .., Function.update_self .., ?_, False.elim⟩⟩
      rw [hwire, Option.getD_none, List.take_nil, List.nil_append]
      exact toCome_offered
    · refine ⟨htried, Or.inr ⟨_, bytes.drop n ++ lost, e, Function.update_self ..,
        Function.update_self .., ?_, False.elim⟩⟩
      rw [hwire, Option.getD_some, ← List.append_assoc, List.take_append_drop]
      exact htc
  · exact (h j).congr (by simp [hj]) (by simp [hj]) rfl Iff.rfl

theorem Inv.deliver (hA : A.Lawful) (h : Inv A cfg kept s) {inbound : Inbound}
    {bytes : List UInt8} {n : ℕ} (hi : s.client i = .reading inbound)
    (hwire : s.wire i = some bytes) (hroom : n ≤ inbound.room) :
    Inv A cfg kept ({ s with wire := Function.update s.wire i (some (bytes.drop n)) }.goto i
      (afterPiece (Connection.receive A (bytes.take n) inbound))) := by
  intro j
  by_cases hj : j = i
  · subst j
    have hserved := h i
    rw [hi] at hserved
    simp only [State.goto, Function.update_self]
    obtain ⟨htried, ⟨hnone, -⟩ | ⟨_, lost, e, hsome, hended, htc, hkept⟩⟩ := hserved
    · cases hnone.symm.trans hwire
    · cases Option.some.inj (hwire.symm.trans hsome)
      have hsplit : bytes ++ lost = bytes.take n ++ (bytes.drop n ++ lost) := by
        rw [← List.append_assoc, List.take_append_drop]
      rw [hsplit] at htc
      have hlen : (bytes.take n).length ≤ inbound.room := (List.length_take_le _ _).trans hroom
      rcases htc.receive hA sendable_offered hlen with ⟨i', hi', htc'⟩ | ⟨t, ts, ht, hi', -⟩
      · rw [hi']
        exact ⟨htried, Or.inr ⟨_, lost, e, Function.update_self .., hended, htc', hkept⟩⟩
      · rw [hi']
        refine ⟨htried, ?_, eq_singleton_of_offered ht⟩
        show (s.ended i).isSome
        rw [hended]
        rfl
  · simp only [State.goto, Function.update_of_ne hj]
    exact (h j).congr (by simp [hj]) rfl rfl Iff.rfl

theorem Inv.eof (h : Inv A cfg kept s) {inbound : Inbound} {e : E}
    (hi : s.client i = .reading inbound) (hwire : s.wire i = some [])
    (hended : s.ended i = some e) :
    Inv A cfg kept (s.goto i (.exited (.readError (.error (.socket e))))) := by
  intro j
  by_cases hj : j = i
  · subst j
    have hserved := h i
    rw [hi] at hserved
    simp only [State.goto, Function.update_self]
    obtain ⟨htried, ⟨hnone, -⟩ | ⟨_, lost, _, hsome, he, htc, hkept⟩⟩ := hserved
    · cases hnone.symm.trans hwire
    · cases Option.some.inj (hwire.symm.trans hsome)
      cases Option.some.inj (hended.symm.trans he)
      refine ⟨htried, e, hended, rfl, fun hk => ?_⟩
      obtain ⟨rfl, heof⟩ := hkept hk
      exact ⟨heof, offered_eq_nil_of_toCome htc⟩
  · simp only [State.goto, Function.update_of_ne hj]
    exact (h j).congr rfl rfl rfl Iff.rfl

theorem Inv.step (hA : A.Lawful) (h : Inv A cfg kept s) (hkept : kept → unbroken s a)
    (hst : step A cfg s a = some s') : Inv A cfg kept s' := by
  cases a with
  | connect i error =>
      simp only [S11nExample.step] at hst
      split at hst
      · rename_i current left hi
        cases Option.some.inj hst
        exact h.connect error hi
      · cases hst
  | accept =>
      simp only [S11nExample.step] at hst
      split at hst
      · rename_i i rest hback
        split_ifs at hst
        cases Option.some.inj hst
        exact h.accept hback
      · cases hst
  | acceptError e =>
      simp only [S11nExample.step] at hst
      split_ifs at hst
      cases Option.some.inj hst
      exact fun i => (h i).congr rfl rfl rfl Iff.rfl
  | fail i e n =>
      simp only [S11nExample.step] at hst
      split at hst
      · rename_i inbound hi
        cases Option.some.inj hst
        have hfalse : kept = False := eq_false fun hk => by cases hkept hk
        subst hfalse
        exact h.fail e n hi
      · cases hst
  | deliver i n =>
      simp only [S11nExample.step] at hst
      split at hst
      · rename_i inbound bytes hi hwire
        split_ifs at hst with hen
        cases Option.some.inj hst
        exact h.deliver hA hi hwire hen.2.1
      · cases hst
  | eof i =>
      simp only [S11nExample.step] at hst
      split at hst
      · rename_i inbound e hi hwire hended
        cases Option.some.inj hst
        exact h.eof hi hwire hended
      · cases hst

theorem inv_of_reachable (hA : A.Lawful) (h : (machine A cfg).Reachable s) :
    Inv A cfg False s := by
  apply h.invariant (I := Inv A cfg False)
  · exact fun i => ⟨rfl, rfl, List.not_mem_nil, rfl⟩
  · exact fun _ hi hst => hi.step hA False.elim hst

/-- Whatever becomes of the connections, a client that exits has printed the stocks, or the
error behind which its stream ended, or an error of `connect` when each of its endpoints was
tried once, in order. -/
theorem client_output (hA : A.Lawful) (h : (machine A cfg).Reachable s) {o : Output T E}
    (ho : s.client i = .exited o) :
    (o = .printed cfg.stocks ∧ (A.encode cfg.stocks).length < 16 ^ 8) ∨
      (∃ e, o = .connectError e ∧ s.tried i = cfg.endpoint i :: cfg.endpoints i) ∨
        ∃ e, o = .readError (.error (.socket e)) ∧ s.ended i = some e := by
  have hserved := inv_of_reachable hA h i
  rw [ho] at hserved
  match o with
  | .printed t =>
      obtain ⟨-, -, hoffered⟩ := hserved
      unfold offered at hoffered
      split_ifs at hoffered with hsome
      cases hoffered
      exact Or.inl ⟨rfl, Connection.asyncWrite_isSome_iff.1 hsome⟩
  | .connectError e => exact Or.inr (Or.inl ⟨e, rfl, hserved.2⟩)
  | .readError o =>
      obtain ⟨-, e, hended, rfl, -⟩ := hserved
      exact Or.inr (Or.inr ⟨e, rfl, hended⟩)

/-- Every client gets the same two endpoints. -/
def threeClients : Config (Option Bool) (List UInt8) ℕ ℕ :=
  ⟨[65, 66, 67], 2, fun _ => 10, fun _ => [11]⟩

/-- One client is served at its second endpoint, one loses its connection behind five bytes of
the data, and one is refused twice. -/
def threeRuns : List (Act (Option Bool) ℕ) :=
  [.connect (some true) (some 111), .connect (some true) none, .connect (some false) none,
    .connect none (some 111), .connect none (some 113), .accept, .accept,
    .deliver (some true) 8, .deliver (some true) 34, .deliver (some false) 8,
    .fail (some false) 104 5, .deliver (some false) 5, .eof (some false)]

theorem client_output_threeClients : ∃ s,
    (machine Connection.textArchive threeClients).run threeRuns = some s ∧
    s.client (some true) = .exited (.printed [65, 66, 67]) ∧
    s.client (some false) = .exited (.readError (.error (.socket 104))) ∧
    s.client none = .exited (.connectError 113) ∧
    ∀ i o, s.client i = .exited o →
      (o = .printed [65, 66, 67] ∧ (Connection.textArchive.encode [65, 66, 67]).length < 16 ^ 8) ∨
        (∃ e, o = .connectError e ∧ s.tried i = [10, 11]) ∨
          ∃ e, o = .readError (.error (.socket e)) ∧ s.ended i = some e := by
  have hrun : ((machine Connection.textArchive threeClients).run threeRuns).map
      (fun s => (s.client (some true), s.client (some false), s.client none)) =
        some (.exited (.printed [65, 66, 67]), .exited (.readError (.error (.socket 104))),
          .exited (.connectError 113)) := by decide +kernel
  obtain ⟨s, hs, hreach, hview⟩ := Machine.reachable_of_run_map hrun
  simp only [Prod.mk.injEq] at hview
  obtain ⟨hprinted, hread, hrefused⟩ := hview
  exact ⟨s, hs, hprinted, hread, hrefused,
    fun i o ho => client_output Connection.textArchive_lawful hreach ho⟩

/-- Client `true` gets through at its second endpoint, client `false` at none. -/
def twoClients : Config Bool (List UInt8) ℕ ℕ :=
  ⟨[65, 66, 67], 2, fun _ => 10, fun i => if i then [11] else []⟩

end Functions
end Londa.S11nExample
