import Mathlib.Data.Fintype.EquivFin
import Mathlib.Data.Nat.Find

/-!
# Asking whether a port is open

Model of `isPortOpen` and `isListening` in `code/boost_doc/IO/port.cpp`. A call takes the
set of descriptors that are open in the process and returns the set it leaves behind. The
addresses that `getaddrinfo` finds come with the outcomes of `socket` and `connect` on each
of them; a new socket gets some descriptor that is not open.

The buffers of the calls and the list that `freeaddrinfo` frees are not tracked.
-/

namespace Londa.Port

inductive Family
  | inet
  | inet6
  | other (ai_family : ℤ)
  deriving DecidableEq

structure Addrinfo where
  ai_family : Family
  ai_addr : List UInt8

/-- How the kernel picks the descriptor of a new socket. -/
structure Opener where
  descriptor : Finset ℕ → ℕ
  descriptor_notMem : ∀ fds, descriptor fds ∉ fds

/-- The lowest-numbered descriptor that is not open. -/
def lowest : Opener where
  descriptor fds := Nat.find (Infinite.exists_notMem_finset fds)
  descriptor_notMem fds := Nat.find_spec (Infinite.exists_notMem_finset fds)

/-- An address with the outcomes of `socket`, which is `none` for -1, and of `connect`. -/
structure Target where
  addr : Addrinfo
  socket : Option Opener
  connect : Bool

structure Net where
  getaddrinfo : String → String → Option (List Target)
  inet_ntop : Family → List UInt8 → Option String

/-- The `switch` over the family of the address that was connected. -/
def Net.retval (net : Net) (addr : Addrinfo) : Option String :=
  match addr.ai_family with
  | .inet => net.inet_ntop .inet addr.ai_addr
  | .inet6 => net.inet_ntop .inet6 addr.ai_addr
  | .other _ => none

/-- The loop over the addresses. Only an address that connects gets to `close`. -/
def Net.tryAll (net : Net) (fds : Finset ℕ) : List Target → Finset ℕ × Option String
  | [] => (fds, none)
  | t :: rest =>
      match t.socket with
      | none => net.tryAll fds rest
      | some opener =>
          let handle := opener.descriptor fds
          if t.connect then ((insert handle fds).erase handle, net.retval t.addr)
          else net.tryAll (insert handle fds) rest

def Net.isPortOpen (net : Net) (domain port : String) (fds : Finset ℕ) : Finset ℕ × String :=
  match net.getaddrinfo domain port with
  | none => (fds, "")
  | some result =>
      ((net.tryAll fds result).1,
        match (net.tryAll fds result).2 with
        | none => ""
        | some retval => domain ++ ":" ++ retval ++ "\n")

def Net.isListening (net : Net) (ip port : String) (fds : Finset ℕ) : Finset ℕ × Bool :=
  ((net.isPortOpen ip port fds).1, !(net.isPortOpen ip port fds).2.isEmpty)

/-- The addresses that are there to be tried. -/
def Net.resolved (net : Net) (domain port : String) : List Target :=
  (net.getaddrinfo domain port).getD []

def Target.opens (t : Target) : Bool := t.socket.isSome

def Target.connects (t : Target) : Bool := t.opens && t.connect

def Family.isIp : Family → Bool
  | .inet => true
  | .inet6 => true
  | .other _ => false

/-- `inet_ntop` succeeds on the two families it knows. -/
def Net.Prints (net : Net) : Prop :=
  ∀ family addr, family.isIp → net.inet_ntop family addr ≠ none

/-- The descriptors that are open on return are those that were open on entry. -/
def Net.Conserves (net : Net) (domain port : String) (fds : Finset ℕ) : Prop :=
  (net.isPortOpen domain port fds).1 = fds

/-- The result is non-empty exactly if some address connects and the first one that does
has an IP family. -/
def Net.Reports (net : Net) (domain port : String) (fds : Finset ℕ) : Prop :=
  (net.isPortOpen domain port fds).2 ≠ "" ↔
    ∃ t, (net.resolved domain port).find? Target.connects = some t ∧ t.addr.ai_family.isIp

/-- The sockets that the loop leaves open: those that are tried and do not connect. -/
def leaked (ts : List Target) : ℕ := (ts.takeWhile (fun t => !t.connects)).countP Target.opens

variable {net : Net} {t : Target} {ts : List Target} {fds : Finset ℕ}

/-- The three ways a turn of the loop can go. -/
theorem tryAll_cons (net : Net) (t : Target) (ts : List Target) (fds : Finset ℕ) :
    (t.opens = false ∧ t.connects = false ∧ net.tryAll fds (t :: ts) = net.tryAll fds ts) ∨
    (t.opens = true ∧ t.connects = true ∧
      net.tryAll fds (t :: ts) = (fds, net.retval t.addr)) ∨
    (t.opens = true ∧ t.connects = false ∧ ∃ handle, handle ∉ fds ∧
      net.tryAll fds (t :: ts) = net.tryAll (insert handle fds) ts) := by
  cases hs : t.socket with
  | none =>
      refine Or.inl ⟨?_, ?_, ?_⟩
      · rw [Target.opens, hs]
        rfl
      · rw [Target.connects, Target.opens, hs]
        rfl
      · simp only [Net.tryAll, hs]
  | some opener =>
      have hopens : t.opens = true := by
        rw [Target.opens, hs]
        rfl
      have hfresh := opener.descriptor_notMem fds
      cases hc : t.connect with
      | true =>
          refine Or.inr (Or.inl ⟨hopens, ?_, ?_⟩)
          · rw [Target.connects, hopens, hc]
            rfl
          · simp only [Net.tryAll, hs, hc, if_true, Finset.erase_insert hfresh]
      | false =>
          refine Or.inr (Or.inr ⟨hopens, ?_, opener.descriptor fds, hfresh, ?_⟩)
          · rw [Target.connects, hopens, hc]
            rfl
          · simp only [Net.tryAll, hs, hc, Bool.false_eq_true, if_false]

theorem leaked_cons (t : Target) (ts : List Target) :
    leaked (t :: ts) = if t.connects then 0 else leaked ts + if t.opens then 1 else 0 := by
  unfold leaked
  cases hc : t.connects with
  | true => simp [hc]
  | false => simp [hc, List.countP_cons]

/-- The loop closes nothing that was open before it. -/
theorem subset_tryAll (net : Net) (ts : List Target) (fds : Finset ℕ) :
    fds ⊆ (net.tryAll fds ts).1 := by
  induction ts generalizing fds with
  | nil => exact Finset.Subset.refl fds
  | cons t ts ih =>
      rcases tryAll_cons net t ts fds with ⟨_, _, he⟩ | ⟨_, _, he⟩ | ⟨_, _, handle, _, he⟩
      · rw [he]
        exact ih fds
      · rw [he]
      · rw [he]
        exact (Finset.subset_insert handle fds).trans (ih _)

/-- Every tried socket that does not connect is one more open descriptor. -/
theorem card_tryAll (net : Net) (ts : List Target) (fds : Finset ℕ) :
    (net.tryAll fds ts).1.card = fds.card + leaked ts := by
  induction ts generalizing fds with
  | nil => rfl
  | cons t ts ih =>
      rw [leaked_cons]
      rcases tryAll_cons net t ts fds with
        ⟨ho, hc, he⟩ | ⟨_, hc, he⟩ | ⟨ho, hc, handle, hfresh, he⟩
      · simp [he, ih, ho, hc]
      · simp [he, hc]
      · rw [he, ih, Finset.card_insert_of_notMem hfresh]
        simp only [ho, hc, Bool.false_eq_true, if_false, if_true]
        omega

theorem tryAll_eq_iff (net : Net) (ts : List Target) (fds : Finset ℕ) :
    (net.tryAll fds ts).1 = fds ↔ leaked ts = 0 := by
  have hcard := card_tryAll net ts fds
  constructor
  · intro h
    rw [h] at hcard
    omega
  · intro h
    exact (Finset.eq_of_subset_of_card_le (subset_tryAll net ts fds) (by omega)).symm

/-- Nothing is leaked exactly if the first address that gets a socket connects. -/
theorem leaked_eq_zero_iff (ts : List Target) :
    leaked ts = 0 ↔ ∀ t, ts.find? Target.opens = some t → t.connect = true := by
  induction ts with
  | nil => simp [leaked]
  | cons t ts ih =>
      rw [leaked_cons]
      cases ho : t.opens with
      | false => simp [Target.connects, ho, ih]
      | true => cases hc : t.connect <;> simp [Target.connects, ho, hc]

theorem tryAll_retval (net : Net) (ts : List Target) (fds : Finset ℕ) :
    (net.tryAll fds ts).2 = (ts.find? Target.connects).bind (fun t => net.retval t.addr) := by
  induction ts generalizing fds with
  | nil => rfl
  | cons t ts ih =>
      rcases tryAll_cons net t ts fds with ⟨_, hc, he⟩ | ⟨_, hc, he⟩ | ⟨_, hc, _, _, he⟩
      · rw [he, ih, List.find?_cons_of_neg (by simp [hc])]
      · rw [he, List.find?_cons_of_pos hc]
        rfl
      · rw [he, ih, List.find?_cons_of_neg (by simp [hc])]

theorem retval_ne_none_iff (hp : net.Prints) (addr : Addrinfo) :
    net.retval addr ≠ none ↔ addr.ai_family.isIp := by
  unfold Net.retval
  cases addr.ai_family with
  | inet => exact iff_of_true (hp .inet addr.ai_addr rfl) rfl
  | inet6 => exact iff_of_true (hp .inet6 addr.ai_addr rfl) rfl
  | other f => simp [Family.isIp]

theorem isPortOpen_fst (net : Net) (domain port : String) (fds : Finset ℕ) :
    (net.isPortOpen domain port fds).1 = (net.tryAll fds (net.resolved domain port)).1 := by
  unfold Net.isPortOpen Net.resolved
  cases net.getaddrinfo domain port <;> rfl

theorem isPortOpen_snd_ne_empty_iff (net : Net) (domain port : String) (fds : Finset ℕ) :
    (net.isPortOpen domain port fds).2 ≠ "" ↔
      (net.tryAll fds (net.resolved domain port)).2 ≠ none := by
  unfold Net.isPortOpen Net.resolved
  cases net.getaddrinfo domain port with
  | none => simp [Net.tryAll]
  | some result =>
      simp only [Option.getD_some]
      cases (net.tryAll fds result).2 <;> simp

theorem conserves_iff (net : Net) (domain port : String) (fds : Finset ℕ) :
    net.Conserves domain port fds ↔
      ∀ t, (net.resolved domain port).find? Target.opens = some t → t.connect = true := by
  unfold Net.Conserves
  rw [isPortOpen_fst, tryAll_eq_iff, leaked_eq_zero_iff]

theorem reports (hp : net.Prints) (domain port : String) (fds : Finset ℕ) :
    net.Reports domain port fds := by
  unfold Net.Reports
  rw [isPortOpen_snd_ne_empty_iff, tryAll_retval]
  cases (net.resolved domain port).find? Target.connects with
  | none => simp
  | some t => simp [← retval_ne_none_iff hp]

/-- `isListening` is true exactly if the first address that connects is an IP address. It
leaves open every socket that was refused before. -/
theorem isListening_spec (hp : net.Prints) (ip port : String) (fds : Finset ℕ) :
    ((net.isListening ip port fds).2 = true ↔ ∃ t, (net.resolved ip port).find?
      Target.connects = some t ∧ t.addr.ai_family.isIp) ∧
    (net.isListening ip port fds).1.card = fds.card + leaked (net.resolved ip port) := by
  constructor
  · have hr := reports hp ip port fds
    unfold Net.Reports at hr
    rw [← hr]
    simp [Net.isListening]
  · change (net.isPortOpen ip port fds).1.card = _
    rw [isPortOpen_fst, card_tryAll]

/-- A call closes what it opened and reports the first address that connects exactly if the
first address that gets a socket connects. -/
theorem conserves_and_reports_iff (net : Net) (hp : net.Prints) (domain port : String)
    (fds : Finset ℕ) :
    net.Conserves domain port fds ∧ net.Reports domain port fds ↔
      ∀ t, (net.resolved domain port).find? Target.opens = some t → t.connect = true := by
  rw [← conserves_iff net domain port fds]
  exact and_iff_left (reports hp domain port fds)

/-- The dotted form of an IPv4 address. -/
def dotted (addr : List UInt8) : String :=
  ".".intercalate (addr.map (fun b => toString b.toNat))

/-- The host of `main`. An IPv6 address comes first, and the process cannot make sockets for
that family; whether the port is open is left to the argument. -/
def host (listening : Bool) : Net where
  getaddrinfo _ _ := some
    [⟨⟨.inet6, [32, 1, 13, 184, 0, 0, 0, 0, 0, 0, 0, 0, 0, 0, 0, 1]⟩, none, false⟩,
      ⟨⟨.inet, [192, 168, 166, 27]⟩, some lowest, listening⟩]
  inet_ntop
    | .inet, addr => some (dotted addr)
    | .inet6, _ => some "2001:db8::1"
    | .other _, _ => none

theorem host_prints (listening : Bool) : (host listening).Prints := by
  intro family addr hf
  cases family with
  | inet | inet6 => nofun
  | other f => cases hf

theorem lowest_three : lowest.descriptor {0, 1, 2} = 3 :=
  (Nat.find_eq_iff _).2 ⟨by decide, by decide⟩

theorem conserves_and_reports_iff_listening :
    (host true).isPortOpen "192.168.166.27" "12343" {0, 1, 2} =
      ({0, 1, 2}, "192.168.166.27:192.168.166.27\n") ∧
    (host true).Conserves "192.168.166.27" "12343" {0, 1, 2} ∧
    (host true).Reports "192.168.166.27" "12343" {0, 1, 2} := by
  refine ⟨?_, (conserves_and_reports_iff _ (host_prints true) _ _ _).2 ?_⟩
  · simp only [Net.isPortOpen, Net.tryAll, host, lowest_three]
    decide +kernel
  · intro t ht
    cases ht
    rfl

/-- Nobody listens: the call reports so, and descriptor 3 stays open. -/
theorem refused_socket_left_open : (host false).Prints ∧
    (host false).isPortOpen "192.168.166.27" "12343" {0, 1, 2} = ({0, 1, 2, 3}, "") ∧
    ¬ ((host false).Conserves "192.168.166.27" "12343" {0, 1, 2} ∧
      (host false).Reports "192.168.166.27" "12343" {0, 1, 2}) := by
  have hcall : (host false).isPortOpen "192.168.166.27" "12343" {0, 1, 2} =
      ({0, 1, 2, 3}, "") := by
    simp only [Net.isPortOpen, Net.tryAll, host, lowest_three]
    decide +kernel
  refine ⟨host_prints false, hcall, fun h => ?_⟩
  have hfds : (host false).Conserves "192.168.166.27" "12343" {0, 1, 2} := h.1
  unfold Net.Conserves at hfds
  rw [hcall] at hfds
  exact absurd hfds (by decide)

end Londa.Port
