import Mathlib.Algebra.BigOperators.Fin
import Mathlib.Algebra.Order.BigOperators.Group.Finset
import Mathlib.Data.List.TakeWhile
import Londa.Machine
import Londa.Monitor

/-!
# Servers that share a port

Model of `worker` in `code/network/TCP/REUSE_PORT/server.cpp`, run by `k` threads.
Each thread listens on a socket of its own, and with `SO_REUSEPORT` the kernel gives
a connection to one of them. A thread serves one connection after the other: it
reads until `read` returns 0 and prints what it has read, in a line for which it
holds the output stream. `all_count`, which nothing reads, is left out.

`given` are the connections that the kernel has given to each thread, `sent` and
`unread` the bytes a client has written and those of them the server has not read.
`accept` and `read` may fail; the thread then copies a range of length -1, which has
no meaning (`broken`), and the results are about runs without such a failure. `main`
sleeps for a hundred seconds and returns, which ends the process with its detached
threads wherever they are (`exit`).

A client that does not close its connection holds up the connections given to the
same thread behind it, and no others: threads that have come to rest have printed
what was given to them up to the first connection that is open.
-/

namespace Londa.ReusePortServer

inductive Pc (γ : Type*)
  | starting
  | stopped
  | accepting
  | reading (c : γ) (content : List UInt8)
  | printing (c : γ) (content : List UInt8)
  | broken
  deriving DecidableEq

/-- The connection a thread serves. -/
def Pc.current {γ : Type*} : Pc γ → Option γ
  | .reading c _ => some c
  | .printing c _ => some c
  | _ => none

/-- The thread has a listening socket. -/
def Pc.listening {γ : Type*} : Pc γ → Bool
  | .starting => false
  | .stopped => false
  | _ => true

/-- A line of output: the thread, what it has read, and from which client. -/
structure Line (k : ℕ) (γ : Type*) where
  thread : Fin k
  client : γ
  content : List UInt8
  deriving DecidableEq

structure State (k : ℕ) (γ : Type*) where
  pc : Fin k → Pc γ
  backlog : Fin k → List γ
  given : Fin k → List γ
  sent : γ → List UInt8
  unread : γ → List UInt8
  closed : γ → Bool
  out : List (Line k γ)
  returned : Bool

inductive Act (k : ℕ) (γ : Type*)
  | start (l : Fin k) (listens : Bool)
  | connect (l : Fin k) (c : γ)
  | send (c : γ) (bytes : List UInt8)
  | close (c : γ)
  | accept (l : Fin k)
  | acceptError (l : Fin k)
  | read (l : Fin k) (n : ℕ)
  | readError (l : Fin k)
  | print (l : Fin k)
  | exit

variable {k : ℕ} {γ : Type*}

section Model

variable [DecidableEq γ]

def State.goto (s : State k γ) (l : Fin k) (p : Pc γ) : State k γ :=
  { s with pc := Function.update s.pc l p }

/-- `socket`, `bind` and `listen`: the thread returns where one of them fails. -/
def start (s : State k γ) (l : Fin k) (listens : Bool) : Option (State k γ) :=
  match s.pc l with
  | .starting => some (s.goto l (if listens then .accepting else .stopped))
  | _ => none

/-- The loop of a thread; `n` is what `read` returns. -/
def workerStep (s : State k γ) : Act k γ → Option (State k γ)
  | .accept l =>
      match s.pc l, s.backlog l with
      | .accepting, c :: rest => some { s.goto l (.reading c []) with
          backlog := Function.update s.backlog l rest }
      | _, _ => none
  | .acceptError l =>
      match s.pc l with
      | .accepting => some (s.goto l .broken)
      | _ => none
  | .read l n =>
      match s.pc l with
      | .reading c content =>
          if s.unread c = [] then
            if s.closed c ∧ n = 0 then some (s.goto l (.printing c content)) else none
          else if 0 < n ∧ n ≤ 1024 ∧ n ≤ (s.unread c).length then
            some { s.goto l (.reading c (content ++ (s.unread c).take n)) with
              unread := Function.update s.unread c ((s.unread c).drop n) }
          else none
      | _ => none
  | .readError l =>
      match s.pc l with
      | .reading _ _ => some (s.goto l .broken)
      | _ => none
  | .print l =>
      match s.pc l with
      | .printing c content => some { s.goto l .accepting with
          out := s.out ++ [⟨l, c, content⟩] }
      | _ => none
  | _ => none

/-- The clients and the kernel. -/
def clientStep (s : State k γ) : Act k γ → Option (State k γ)
  | .connect l c =>
      if (s.pc l).listening ∧ ∀ j, c ∉ s.given j then
        some { s with
          backlog := Function.update s.backlog l (s.backlog l ++ [c])
          given := Function.update s.given l (s.given l ++ [c]) }
      else none
  | .send c bytes =>
      if (∃ l, c ∈ s.given l) ∧ s.closed c = false then
        some { s with
          sent := Function.update s.sent c (s.sent c ++ bytes)
          unread := Function.update s.unread c (s.unread c ++ bytes) }
      else none
  | .close c =>
      if ∃ l, c ∈ s.given l then some { s with closed := Function.update s.closed c true }
      else none
  | _ => none

def step (s : State k γ) (a : Act k γ) : Option (State k γ) :=
  if s.returned then none
  else match a with
    | .start l listens => start s l listens
    | .connect _ _ | .send _ _ | .close _ => clientStep s a
    | .accept _ | .acceptError _ | .read _ _ | .readError _ | .print _ => workerStep s a
    | .exit => some { s with returned := true }

def initial (k : ℕ) (γ : Type*) : State k γ where
  pc _ := .starting
  backlog _ := []
  given _ := []
  sent _ := []
  unread _ := []
  closed _ := false
  out := []
  returned := false

def server (k : ℕ) (γ : Type*) [DecidableEq γ] : Machine (State k γ) (Act k γ) where
  init := initial k γ
  step := step

/-- Every step but a call of `accept` or `read` that fails. -/
def faultless (_ : State k γ) : Act k γ → Bool
  | .acceptError _ => false
  | .readError _ => false
  | _ => true

/-- What a step without a failure can do. -/
inductive Trans (s : State k γ) : State k γ → Prop
  | listen (l : Fin k) : s.pc l = .starting → Trans s (s.goto l .accepting)
  | stop (l : Fin k) : s.pc l = .starting → Trans s (s.goto l .stopped)
  | connect (l : Fin k) (c : γ) : (s.pc l).listening = true → (∀ j, c ∉ s.given j) →
      Trans s { s with
        backlog := Function.update s.backlog l (s.backlog l ++ [c])
        given := Function.update s.given l (s.given l ++ [c]) }
  | send (l : Fin k) (c : γ) (bytes : List UInt8) : c ∈ s.given l → s.closed c = false →
      Trans s { s with
        sent := Function.update s.sent c (s.sent c ++ bytes)
        unread := Function.update s.unread c (s.unread c ++ bytes) }
  | close (c : γ) : Trans s { s with closed := Function.update s.closed c true }
  | accept (l : Fin k) (c : γ) (rest : List γ) : s.pc l = .accepting → s.backlog l = c :: rest →
      Trans s { s.goto l (.reading c []) with backlog := Function.update s.backlog l rest }
  | read (l : Fin k) (c : γ) (content : List UInt8) (n : ℕ) : s.pc l = .reading c content →
      Trans s { s.goto l (.reading c (content ++ (s.unread c).take n)) with
        unread := Function.update s.unread c ((s.unread c).drop n) }
  | eof (l : Fin k) (c : γ) (content : List UInt8) : s.pc l = .reading c content →
      s.unread c = [] → s.closed c = true → Trans s (s.goto l (.printing c content))
  | print (l : Fin k) (c : γ) (content : List UInt8) : s.pc l = .printing c content →
      Trans s { s.goto l .accepting with out := s.out ++ [⟨l, c, content⟩] }
  | exit : Trans s { s with returned := true }

theorem step_trans {s t : State k γ} {a : Act k γ} (hst : step s a = some t)
    (hc : faultless s a) : Trans s t := by
  obtain ⟨-, hst⟩ := (Option.ite_none_left_eq_some ..).1 hst
  cases a with
  | start l listens =>
      simp only [start] at hst
      split at hst
      · cases hst
        cases listens with
        | true => exact .listen l ‹_›
        | false => exact .stop l ‹_›
      · cases hst
  | connect l c =>
      obtain ⟨⟨hl, hp⟩, heq⟩ := (Option.ite_none_right_eq_some ..).1 hst
      cases heq
      exact .connect l c hl hp
  | send c bytes =>
      obtain ⟨⟨⟨l, hl⟩, hopen⟩, heq⟩ := (Option.ite_none_right_eq_some ..).1 hst
      cases heq
      exact .send l c bytes hl hopen
  | close c =>
      obtain ⟨-, heq⟩ := (Option.ite_none_right_eq_some ..).1 hst
      cases heq
      exact .close c
  | accept l =>
      simp only [workerStep] at hst
      split at hst
      · cases hst
        exact .accept l _ _ ‹_› ‹_›
      · cases hst
  | read l n =>
      simp only [workerStep] at hst
      split at hst
      · rename_i c content hpc
        split_ifs at hst with hempty hclosed hn
        · cases hst
          exact .eof l c content hpc hempty hclosed.1
        · cases hst
          exact .read l c content n hpc
      · cases hst
  | print l =>
      simp only [workerStep] at hst
      split at hst
      · cases hst
        exact .print l _ _ ‹_›
      · cases hst
  | acceptError l | readError l => cases hc
  | exit =>
      cases hst
      exact .exit

end Model

/-- The clients whose connections a thread has printed, in that order. -/
def State.printedBy (s : State k γ) (l : Fin k) : List γ :=
  (s.out.filter (fun m => m.thread = l)).map Line.client

/-- What a thread knows of the connection it serves. -/
def Pc.Knows (s : State k γ) : Pc γ → Prop
  | .reading c content => content ++ s.unread c = s.sent c
  | .printing c content => content = s.sent c ∧ s.closed c = true
  | _ => True

/-- The connections given to a thread are those it has printed, the one it serves, and those
that wait, in this order. -/
structure Inv (s : State k γ) : Prop where
  split : ∀ l, s.printedBy l ++ ((s.pc l).current.toList ++ s.backlog l) = s.given l
  nodup : ∀ l, (s.given l).Nodup
  apart : ∀ i j c, c ∈ s.given i → c ∈ s.given j → i = j
  up : ∀ l, s.given l ≠ [] → (s.pc l).listening = true
  sane : ∀ l, s.pc l ≠ .broken
  fresh : ∀ c, (∀ l, c ∉ s.given l) → s.sent c = [] ∧ s.unread c = []
  waiting : ∀ l, ∀ c ∈ s.backlog l, s.unread c = s.sent c
  knows : ∀ l, (s.pc l).Knows s
  printed : ∀ m ∈ s.out, m.content = s.sent m.client ∧ s.closed m.client = true
  once : (s.out.map Line.client).Nodup

namespace Inv

variable {s t : State k γ} {l j : Fin k} {c : γ}

theorem initial : Inv (initial k γ) := by
  constructor <;> simp [ReusePortServer.initial, State.printedBy, Pc.current, Pc.Knows]

theorem current_given (hi : Inv s) (h : (s.pc l).current = some c) : c ∈ s.given l := by
  rw [← hi.split l, h]
  simp

theorem waiting_given (hi : Inv s) (h : c ∈ s.backlog l) : c ∈ s.given l := by
  rw [← hi.split l]
  simp [h]

theorem printed_given (hi : Inv s) {m : Line k γ} (h : m ∈ s.out) :
    m.client ∈ s.printedBy m.thread ∧ m.client ∈ s.given m.thread := by
  have hmem : m.client ∈ s.printedBy m.thread :=
    List.mem_map.2 ⟨m, List.mem_filter.2 ⟨h, by simp⟩, rfl⟩
  refine ⟨hmem, ?_⟩
  rw [← hi.split]
  exact List.mem_append_left _ hmem

/-- The connection a thread serves is served, printed and waiting nowhere else. -/
theorem current_alone (hi : Inv s) (h : (s.pc l).current = some c) :
    (∀ j, (s.pc j).current = some c → j = l) ∧ (∀ m ∈ s.out, m.client ≠ c) ∧
      ∀ j, c ∉ s.backlog j := by
  have hgiven := hi.current_given h
  have hnodup := hi.nodup l
  rw [← hi.split l, h, List.nodup_append] at hnodup
  obtain ⟨-, hrest, hapart⟩ := hnodup
  refine ⟨fun j hj => hi.apart j l c (hi.current_given hj) hgiven, ?_, fun j hj => ?_⟩
  · rintro m hm rfl
    obtain ⟨hprinted, hmem⟩ := hi.printed_given hm
    obtain rfl := hi.apart m.thread l m.client hmem hgiven
    exact hapart m.client hprinted m.client (by simp) rfl
  · obtain rfl := hi.apart j l c (hi.waiting_given hj) hgiven
    simp [hj] at hrest

theorem mem_given (h : t.given = Function.update s.given l (s.given l ++ [c])) {d : γ}
    (hd : d ∈ t.given j) : d ∈ s.given j ∨ j = l ∧ d = c := by
  rw [h] at hd
  by_cases hj : j = l
  · subst hj
    rw [Function.update_self, List.mem_append, List.mem_singleton] at hd
    exact hd.imp id (fun hd => ⟨rfl, hd⟩)
  · rw [Function.update_of_ne hj] at hd
    exact .inl hd

/-- A thread knows the same as long as nothing is written to or read from its connection. -/
theorem knows_congr {p : Pc γ} (h : p.Knows s)
    (hsame : ∀ d, p.current = some d → t.sent d = s.sent d ∧ t.unread d = s.unread d)
    (hclosed : ∀ d, s.closed d = true → t.closed d = true) : p.Knows t := by
  cases p with
  | reading d content =>
      obtain ⟨hsent, hunread⟩ := hsame d rfl
      simp only [Pc.Knows, hsent, hunread]
      exact h
  | printing d content =>
      simp only [Pc.Knows, (hsame d rfl).1]
      exact ⟨h.1, hclosed d h.2⟩
  | _ => trivial

variable [DecidableEq γ]

theorem step_given (ht : Trans s t) : t.given = s.given ∨
    ∃ l c, (s.pc l).listening = true ∧ t.pc = s.pc ∧ (∀ j, c ∉ s.given j) ∧
      t.given = Function.update s.given l (s.given l ++ [c]) := by
  cases ht with
  | connect l c hl hnew => exact .inr ⟨l, c, hl, rfl, hnew, rfl⟩
  | _ => exact .inl rfl

theorem step_nodup (hi : Inv s) (ht : Trans s t) (j : Fin k) : (t.given j).Nodup := by
  rcases step_given ht with hgiven | ⟨l, c, -, -, hnew, hgiven⟩
  · rw [hgiven]
    exact hi.nodup j
  · rw [hgiven]
    by_cases hj : j = l
    · subst hj
      rw [Function.update_self]
      exact (hi.nodup j).append (List.nodup_singleton c) (List.disjoint_singleton.2 (hnew j))
    · rw [Function.update_of_ne hj]
      exact hi.nodup j

theorem step_apart (hi : Inv s) (ht : Trans s t) (i j : Fin k) (d : γ) (hdi : d ∈ t.given i)
    (hdj : d ∈ t.given j) : i = j := by
  rcases step_given ht with hgiven | ⟨l, c, -, -, hnew, hgiven⟩
  · rw [hgiven] at hdi hdj
    exact hi.apart i j d hdi hdj
  · rcases mem_given hgiven hdi with hold | ⟨rfl, rfl⟩
    · rcases mem_given hgiven hdj with hold' | ⟨rfl, rfl⟩
      · exact hi.apart i j d hold hold'
      · exact absurd hold (hnew i)
    · rcases mem_given hgiven hdj with hold' | ⟨rfl, -⟩
      · exact absurd hold' (hnew j)
      · rfl

theorem step_split (hi : Inv s) (ht : Trans s t) (j : Fin k) :
    t.printedBy j ++ ((t.pc j).current.toList ++ t.backlog j) = t.given j := by
  have hsplit := hi.split j
  cases ht with
  | listen l hpc | stop l hpc | read l c content n hpc | eof l c content hpc =>
      by_cases hj : j = l
      · subst hj
        rw [hpc] at hsplit
        simp only [State.goto, Function.update_self]
        exact hsplit
      · simp only [State.goto, Function.update_of_ne hj]
        exact hsplit
  | send l c bytes | close c | exit => exact hsplit
  | connect l c hl hnew =>
      by_cases hj : j = l
      · subst hj
        simp only [Function.update_self]
        rw [← hsplit, List.append_assoc, List.append_assoc]
        rfl
      · simp only [Function.update_of_ne hj]
        exact hsplit
  | accept l c rest hpc hback =>
      by_cases hj : j = l
      · subst hj
        rw [hpc, hback] at hsplit
        simp only [State.goto, Function.update_self]
        exact hsplit
      · simp only [State.goto, Function.update_of_ne hj]
        exact hsplit
  | print l c content hpc =>
      by_cases hj : j = l
      · subst hj
        rw [hpc] at hsplit
        simpa [State.goto, State.printedBy, Pc.current] using hsplit
      · simpa [State.goto, State.printedBy, Function.update_of_ne hj, Ne.symm hj] using hsplit

theorem trans_listening (ht : Trans s t) (h : (s.pc j).listening = true) :
    (t.pc j).listening = true := by
  cases ht with
  | listen l hpc | stop l hpc =>
      have hj : j ≠ l := by
        rintro rfl
        rw [hpc] at h
        cases h
      simpa only [State.goto, Function.update_of_ne hj] using h
  | accept l c rest hpc hback | read l c content n hpc | eof l c content hpc
  | print l c content hpc =>
      simp only [State.goto]
      rwa [update_frame Pc.listening (by rw [hpc]; rfl)]
  | send | close | connect | exit => exact h

theorem step_up (hi : Inv s) (ht : Trans s t) (j : Fin k) (hj : t.given j ≠ []) :
    (t.pc j).listening = true := by
  apply trans_listening ht
  rcases step_given ht with hgiven | ⟨l, c, hl, -, -, hgiven⟩
  · rw [hgiven] at hj
    exact hi.up j hj
  · by_cases hjl : j = l
    · rwa [hjl]
    · rw [hgiven, Function.update_of_ne hjl] at hj
      exact hi.up j hj

theorem step_sane (hi : Inv s) (ht : Trans s t) (j : Fin k) : t.pc j ≠ .broken := by
  have hsane := hi.sane j
  cases ht with
  | send | close | connect | exit => exact hsane
  | listen l | stop l | accept l | read l | eof l | print l =>
      by_cases hj : j = l
      · subst hj
        simp [State.goto]
      · simpa only [State.goto, Function.update_of_ne hj] using hsane

theorem step_fresh (hi : Inv s) (ht : Trans s t) (d : γ) (hd : ∀ j, d ∉ t.given j) :
    t.sent d = [] ∧ t.unread d = [] := by
  cases ht with
  | send l c bytes hc =>
      have hdc : d ≠ c := by
        rintro rfl
        exact hd l hc
      simp only [Function.update_of_ne hdc]
      exact hi.fresh d hd
  | read l c content n hpc =>
      have hdc : d ≠ c := by
        rintro rfl
        exact hd l (hi.current_given (by rw [hpc]; rfl))
      simp only [Function.update_of_ne hdc]
      exact hi.fresh d hd
  | connect l c =>
      refine hi.fresh d (fun j hj => hd j ?_)
      by_cases hjl : j = l
      · subst hjl
        simp [hj]
      · simpa only [Function.update_of_ne hjl] using hj
  | listen | stop | close | accept | eof | print | exit => exact hi.fresh d hd

theorem step_waiting (hi : Inv s) (ht : Trans s t) (j : Fin k) (d : γ) (hd : d ∈ t.backlog j) :
    t.unread d = t.sent d := by
  cases ht with
  | send l c bytes =>
      have hsame := hi.waiting j d hd
      by_cases hdc : d = c
      · subst hdc
        simp only [Function.update_self, hsame]
      · simpa only [Function.update_of_ne hdc] using hsame
  | read l c content n hpc =>
      have hdc : d ≠ c := by
        rintro rfl
        exact (hi.current_alone (by rw [hpc]; rfl)).2.2 j hd
      simp only [Function.update_of_ne hdc]
      exact hi.waiting j d hd
  | connect l c hl hnew =>
      by_cases hj : j = l
      · subst hj
        simp only [Function.update_self, List.mem_append, List.mem_singleton] at hd
        rcases hd with hd | rfl
        · exact hi.waiting j d hd
        · obtain ⟨hsent, hunread⟩ := hi.fresh d hnew
          exact hunread.trans hsent.symm
      · simp only [Function.update_of_ne hj] at hd
        exact hi.waiting j d hd
  | accept l c rest hpc hback =>
      refine hi.waiting j d ?_
      by_cases hj : j = l
      · subst hj
        simp only [Function.update_self] at hd
        rw [hback]
        exact List.mem_cons_of_mem c hd
      · simpa only [Function.update_of_ne hj] using hd
  | listen | stop | close | eof | print | exit => exact hi.waiting j d hd

theorem step_knows (hi : Inv s) (ht : Trans s t) (j : Fin k) : (t.pc j).Knows t := by
  have hknows := hi.knows j
  cases ht with
  | connect | exit => exact knows_congr hknows (fun _ _ => ⟨rfl, rfl⟩) (fun _ => id)
  | close c =>
      refine knows_congr hknows (fun _ _ => ⟨rfl, rfl⟩) (fun d hd => ?_)
      by_cases hdc : d = c
      · simp [hdc]
      · simpa only [Function.update_of_ne hdc] using hd
  | listen l | stop l =>
      by_cases hj : j = l
      · subst hj
        simp only [State.goto, Function.update_self]
        trivial
      · simp only [State.goto, Function.update_of_ne hj]
        exact knows_congr hknows (fun _ _ => ⟨rfl, rfl⟩) (fun _ => id)
  | send l c bytes hc hopen =>
      by_cases hcurrent : (s.pc j).current = some c
      · simp only
        cases hpc : s.pc j with
        | reading d content =>
            rw [hpc] at hknows hcurrent
            obtain rfl := Option.some.inj hcurrent
            simp only [Pc.Knows, Function.update_self, ← List.append_assoc]
            rw [hknows]
        | printing d content =>
            rw [hpc] at hknows hcurrent
            obtain rfl := Option.some.inj hcurrent
            rw [hknows.2] at hopen
            cases hopen
        | _ => trivial
      · refine knows_congr hknows (fun d hd => ?_) (fun _ => id)
        have hdc : d ≠ c := by
          rintro rfl
          exact hcurrent hd
        simp only [Function.update_of_ne hdc, and_self]
  | accept l c rest hpc hback =>
      by_cases hj : j = l
      · subst hj
        simp only [State.goto, Function.update_self]
        exact hi.waiting j c (by simp [hback])
      · simp only [State.goto, Function.update_of_ne hj]
        exact knows_congr hknows (fun _ _ => ⟨rfl, rfl⟩) (fun _ => id)
  | read l c content n hpc =>
      by_cases hj : j = l
      · subst hj
        rw [hpc] at hknows
        simp only [State.goto, Function.update_self, Pc.Knows, List.append_assoc,
          List.take_append_drop]
        exact hknows
      · simp only [State.goto, Function.update_of_ne hj]
        refine knows_congr hknows (fun d hd => ⟨rfl, ?_⟩) (fun _ => id)
        have hdc : d ≠ c := by
          rintro rfl
          exact hj ((hi.current_alone (by rw [hpc]; rfl)).1 j hd)
        simp only [Function.update_of_ne hdc]
  | eof l c content hpc hempty hclosed =>
      by_cases hj : j = l
      · subst hj
        rw [hpc] at hknows
        simp only [State.goto, Function.update_self]
        refine ⟨?_, hclosed⟩
        simpa [Pc.Knows, hempty] using hknows
      · simp only [State.goto, Function.update_of_ne hj]
        exact knows_congr hknows (fun _ _ => ⟨rfl, rfl⟩) (fun _ => id)
  | print l c content hpc =>
      by_cases hj : j = l
      · subst hj
        simp only [State.goto, Function.update_self]
        trivial
      · simp only [State.goto, Function.update_of_ne hj]
        exact knows_congr hknows (fun _ _ => ⟨rfl, rfl⟩) (fun _ => id)

theorem step_printed (hi : Inv s) (ht : Trans s t) (m : Line k γ) (hm : m ∈ t.out) :
    m.content = t.sent m.client ∧ t.closed m.client = true := by
  cases ht with
  | send l c bytes hc hopen =>
      obtain ⟨hcontent, hclosed⟩ := hi.printed m hm
      have hmc : m.client ≠ c := by
        rintro rfl
        rw [hclosed] at hopen
        cases hopen
      simp only [Function.update_of_ne hmc]
      exact ⟨hcontent, hclosed⟩
  | close c =>
      obtain ⟨hcontent, hclosed⟩ := hi.printed m hm
      refine ⟨hcontent, ?_⟩
      by_cases hmc : m.client = c
      · simp [hmc]
      · simpa only [Function.update_of_ne hmc] using hclosed
  | print l c content hpc =>
      rcases List.mem_append.1 hm with hm | hm
      · exact hi.printed m hm
      · obtain rfl := List.mem_singleton.1 hm
        have hknows := hi.knows l
        rw [hpc] at hknows
        exact hknows
  | listen | stop | connect | accept | read | eof | exit => exact hi.printed m hm

theorem step_once (hi : Inv s) (ht : Trans s t) : (t.out.map Line.client).Nodup := by
  cases ht with
  | print l c content hpc =>
      rw [List.map_append]
      refine hi.once.append (List.nodup_singleton c) (List.disjoint_singleton.2 fun hmem => ?_)
      obtain ⟨m, hm, hmc⟩ := List.mem_map.1 hmem
      exact (hi.current_alone (by rw [hpc]; rfl)).2.1 m hm hmc
  | listen | stop | connect | send | close | accept | read | eof | exit => exact hi.once

theorem step (hi : Inv s) (ht : Trans s t) : Inv t :=
  ⟨hi.step_split ht, hi.step_nodup ht, hi.step_apart ht, hi.step_up ht, hi.step_sane ht,
    hi.step_fresh ht, hi.step_waiting ht, hi.step_knows ht, hi.step_printed ht, hi.step_once ht⟩

end Inv

theorem inv_of_reachable [DecidableEq γ] {s : State k γ}
    (h : (server k γ).ReachableBy (fun s a => faultless s a) s) : Inv s :=
  h.invariant Inv.initial (fun _ hi hc hst => hi.step (step_trans hst hc))

section Rest

variable [DecidableEq γ] {s t : State k γ} {l : Fin k} {a : Act k γ}

/-- The thread cannot go on without the clients. -/
def Waits (s : State k γ) (l : Fin k) : Prop :=
  workerStep s (.accept l) = none ∧ (∀ n, workerStep s (.read l n) = none) ∧
    workerStep s (.print l) = none

def AtRest (s : State k γ) : Prop := ∀ l, Waits s l

theorem waits_accepting (hpc : s.pc l = .accepting) (hback : s.backlog l = []) : Waits s l :=
  ⟨by simp [workerStep, hback], fun n => by simp [workerStep, hpc], by simp [workerStep, hpc]⟩

theorem waits_reading {c : γ} {content : List UInt8} (hpc : s.pc l = .reading c content)
    (hempty : s.unread c = []) (hopen : s.closed c = false) : Waits s l :=
  ⟨by simp [workerStep, hpc], fun n => by simp [workerStep, hpc, hempty, hopen],
    by simp [workerStep, hpc]⟩

/-- The calls of the threads that do not fail. -/
def Act.isWorker : Act k γ → Bool
  | .accept _ => true
  | .read _ _ => true
  | .print _ => true
  | _ => false

/-- A bound on the calls left for the connection a thread serves, with one byte for each
`read`. -/
def Pc.left (unread : γ → List UInt8) : Pc γ → ℕ
  | .reading c _ => 2 + (unread c).length
  | .printing _ _ => 1
  | _ => 0

/-- A bound on the calls a thread has to make for the connections given to it. -/
def State.work (s : State k γ) (l : Fin k) : ℕ :=
  ((s.backlog l).map (fun c => 3 + (s.unread c).length)).sum + (s.pc l).left s.unread

omit [DecidableEq γ] in
theorem Inv.closed_of_printed (hi : Inv s) {c : γ} (h : c ∈ s.printedBy l) :
    s.closed c = true := by
  obtain ⟨m, hm, rfl⟩ := List.mem_map.1 h
  exact (hi.printed m (List.mem_filter.1 hm).1).2

omit [DecidableEq γ] in
theorem Inv.printedBy_prefix (hi : Inv s) (l : Fin k) :
    s.printedBy l <+: (s.given l).takeWhile s.closed := by
  rw [← hi.split l, List.takeWhile_append_of_pos (fun c hc => hi.closed_of_printed hc)]
  exact List.prefix_append _ _

/-- A thread at rest waits for a connection, or for a client that has not closed its own. -/
theorem Inv.printedBy_of_rest (hi : Inv s) (hrest : AtRest s) (l : Fin k) :
    s.printedBy l = (s.given l).takeWhile s.closed := by
  obtain ⟨haccept, hread, hprint⟩ := hrest l
  have hsplit := hi.split l
  have hall : ∀ c ∈ s.printedBy l, s.closed c = true := fun c hc => hi.closed_of_printed hc
  cases hpc : s.pc l with
  | starting | stopped =>
      have hnone : s.given l = [] := by
        by_contra hne
        have hup := hi.up l hne
        rw [hpc] at hup
        cases hup
      rw [hnone] at hsplit ⊢
      exact (List.append_eq_nil_iff.1 hsplit).1
  | accepting =>
      have hback : s.backlog l = [] := by
        cases hback : s.backlog l with
        | nil => rfl
        | cons c rest => simp [workerStep, hpc, hback] at haccept
      rw [hpc, hback] at hsplit
      have hgiven : s.printedBy l = s.given l := by simpa [Pc.current] using hsplit
      rw [← hgiven, List.takeWhile_eq_self_iff.2 hall]
  | reading c content =>
      have hempty : s.unread c = [] := by
        by_contra hne
        have hpos : 1 ≤ (s.unread c).length := List.length_pos_iff.2 hne
        have hone := hread 1
        simp [workerStep, hpc, hne, hpos] at hone
      have hopen : s.closed c = false := by
        have hzero := hread 0
        simpa [workerStep, hpc, hempty] using hzero
      rw [hpc] at hsplit
      rw [← hsplit, List.takeWhile_append_of_pos hall]
      simp [Pc.current, hopen]
  | printing c content => simp [workerStep, hpc] at hprint
  | broken => exact absurd hpc (hi.sane l)

theorem Inv.work_lt (hi : Inv s) (ha : a.isWorker = true) (hst : workerStep s a = some t) :
    ∃ l, t.work l < s.work l ∧ ∀ j, j ≠ l → t.work j = s.work j := by
  cases a with
  | accept l =>
      simp only [workerStep] at hst
      split at hst
      · rename_i c rest hpc hback
        cases hst
        refine ⟨l, ?_, fun j hj => ?_⟩
        · simp [State.work, Pc.left, State.goto, hpc, hback]
          omega
        · simp [State.work, State.goto, hj]
      · cases hst
  | read l n =>
      simp only [workerStep] at hst
      split at hst
      · rename_i c content hpc
        obtain ⟨hserved, -, hwaits⟩ := hi.current_alone (l := l) (c := c) (by rw [hpc]; rfl)
        split_ifs at hst with hempty hclosed hn
        · cases hst
          refine ⟨l, ?_, fun j hj => ?_⟩
          · simp [State.work, Pc.left, State.goto, hpc, hempty]
          · simp [State.work, State.goto, hj]
        · cases hst
          have hsame : ∀ j, ((s.backlog j).map (fun d => 3 + (Function.update s.unread c
              ((s.unread c).drop n) d).length)) =
                (s.backlog j).map (fun d => 3 + (s.unread d).length) := by
            intro j
            refine List.map_congr_left (fun d hd => ?_)
            have hdc : d ≠ c := by
              rintro rfl
              exact hwaits j hd
            rw [Function.update_of_ne hdc]
          refine ⟨l, ?_, fun j hj => ?_⟩
          · simp [State.work, Pc.left, State.goto, hpc, hsame]
            omega
          · simp only [State.work, State.goto, Function.update_of_ne hj, hsame]
            congr 1
            cases hpj : s.pc j with
            | reading d other =>
                have hdc : d ≠ c := by
                  rintro rfl
                  exact hj (hserved j (by rw [hpj]; rfl))
                simp only [Pc.left, Function.update_of_ne hdc]
            | _ => rfl
      · cases hst
  | print l =>
      simp only [workerStep] at hst
      split at hst
      · rename_i c content hpc
        cases hst
        refine ⟨l, ?_, fun j hj => ?_⟩
        · simp [State.work, Pc.left, State.goto, hpc]
        · simp [State.work, State.goto, hj]
      · cases hst
  | _ => cases ha

theorem step_of_isWorker (ha : a.isWorker = true) (h : step s a = some t) :
    workerStep s a = some t ∧ faultless s a := by
  obtain ⟨-, h⟩ := (Option.ite_none_left_eq_some ..).1 h
  cases a with
  | accept | read | print => exact ⟨h, rfl⟩
  | _ => cases ha

/-- Left alone by the clients, the threads come to rest. -/
theorem length_le_work {as : List (Act k γ)}
    (h : (server k γ).ReachableBy (fun s a => faultless s a) s)
    (has : ∀ a ∈ as, a.isWorker = true) (hrun : (server k γ).runFrom s as = some t) :
    as.length ≤ ∑ l, s.work l := by
  induction as generalizing s with
  | nil => exact Nat.zero_le _
  | cons a as ih =>
      obtain ⟨u, hu, hrest⟩ := (server k γ).runFrom_cons_eq_some.1 hrun
      obtain ⟨ha, has⟩ := List.forall_mem_cons.1 has
      obtain ⟨hworker, hc⟩ := step_of_isWorker ha hu
      obtain ⟨l, hlt, hsame⟩ := (inv_of_reachable h).work_lt ha hworker
      have hsum : ∑ j, u.work j < ∑ j, s.work j := by
        refine Finset.sum_lt_sum (fun j _ => ?_) ⟨l, Finset.mem_univ l, hlt⟩
        by_cases hj : j = l
        · exact hj ▸ hlt.le
        · exact (hsame j hj).le
      have hle := ih (h.step hc hu) has hrest
      rw [List.length_cons]
      omega

end Rest

/-- Each line of output is all that one client has sent before it closed its connection, and no
client has two. A thread prints the connections given to it in their order and none behind one
that is open; left alone the threads come to rest, and have then printed all up to there. -/
theorem printed_up_to_open [DecidableEq γ] {s : State k γ}
    (h : (server k γ).ReachableBy (fun s a => faultless s a) s) :
    (∀ m ∈ s.out, m.content = s.sent m.client ∧ s.closed m.client = true) ∧
      (s.out.map Line.client).Nodup ∧
      (∀ l, s.printedBy l <+: (s.given l).takeWhile s.closed) ∧
      (AtRest s → ∀ l, s.printedBy l = (s.given l).takeWhile s.closed) ∧
      ∀ as t, (∀ a ∈ as, a.isWorker = true) → (server k γ).runFrom s as = some t →
        as.length ≤ ∑ l, s.work l := by
  have hi := inv_of_reachable h
  exact ⟨hi.printed, hi.once, hi.printedBy_prefix, hi.printedBy_of_rest,
    fun _ _ has hrun => length_le_work h has hrun⟩

/-- The first thread gets a client that stays and one behind it, the second thread a third. -/
def arrivals : List (Act 2 ℕ) :=
  [.start ⟨0, Nat.zero_lt_two⟩ true, .start ⟨1, Nat.one_lt_two⟩ true,
    .connect ⟨0, Nat.zero_lt_two⟩ 10, .connect ⟨0, Nat.zero_lt_two⟩ 11,
    .connect ⟨1, Nat.one_lt_two⟩ 12, .send 10 [97], .send 11 [98], .close 11, .send 12 [99, 100],
    .close 12]

/-- The calls of the threads up to their rest. -/
def served : List (Act 2 ℕ) :=
  [.accept ⟨0, Nat.zero_lt_two⟩, .read ⟨0, Nat.zero_lt_two⟩ 1, .accept ⟨1, Nat.one_lt_two⟩,
    .read ⟨1, Nat.one_lt_two⟩ 2, .read ⟨1, Nat.one_lt_two⟩ 0, .print ⟨1, Nat.one_lt_two⟩]

theorem printed_up_to_open_threeClients : ∃ s t : State 2 ℕ,
    (server 2 ℕ).run arrivals = some s ∧ (server 2 ℕ).runFrom s served = some t ∧ AtRest t ∧
      t.closed 11 = true ∧ t.out.map Line.content = [[99, 100]] ∧
      (∀ l, t.printedBy l = (t.given l).takeWhile t.closed) ∧
      served.length ≤ ∑ l, s.work l := by
  have hrun : (((server 2 ℕ).checkedFrom faultless (server 2 ℕ).init arrivals).bind
      (fun s => (server 2 ℕ).checkedFrom faultless s served)).map (fun t => decide (
        (t.pc ⟨0, Nat.zero_lt_two⟩ = .reading 10 [97] ∧ t.unread 10 = [] ∧ t.closed 10 = false) ∧
        (t.pc ⟨1, Nat.one_lt_two⟩ = .accepting ∧ t.backlog ⟨1, Nat.one_lt_two⟩ = []) ∧
        t.closed 11 = true ∧ t.out.map Line.content = [[99, 100]])) = some true := by
    decide +kernel
  obtain ⟨t, hboth, hview⟩ := Option.map_eq_some_iff.1 hrun
  obtain ⟨s, hs, ht⟩ := Option.bind_eq_some_iff.1 hboth
  obtain ⟨⟨hreading, hempty, hopen⟩, ⟨haccepting, hback⟩, hclosed, hout⟩ :=
    of_decide_eq_true hview
  have hrest : AtRest t :=
    Fin.forall_fin_two.2 ⟨waits_reading hreading hempty hopen, waits_accepting haccepting hback⟩
  have hreach := Machine.ReachableBy.checkedFrom .init hs
  have hrunFrom := Machine.runFrom_of_checked ht
  exact ⟨s, t, Machine.runFrom_of_checked hs, hrunFrom, hrest, hclosed, hout,
    (printed_up_to_open (Machine.ReachableBy.checkedFrom hreach ht)).2.2.2.1 hrest,
    (printed_up_to_open hreach).2.2.2.2 served t (by decide) hrunFrom⟩

end Londa.ReusePortServer
