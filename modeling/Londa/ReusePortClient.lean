import Londa.Machine
import Londa.Monitor
import Londa.Lines

/-!
# Workers that read their files through one stream

Model of `worker` in `code/network/TCP/REUSE_PORT/client.cpp`, run by `n` threads on a file
with the given text. Each worker opens the file for itself and then redirects the global
`cin` to its own buffer, which also clears the state of the stream; from there on all
workers read through `cin`, whoever redirected it last. `file i` is the part of the file
that was not read through the buffer of worker `i`. A worker that leaves destroys its
buffer, and a read through a destroyed buffer is recorded in `fault`.

The writes of a worker are kept as the list of its lines. Whether the connection was
established is not looked at by the code that follows.
-/

namespace Londa.ReusePortClient

open Lines

def newline : UInt8 := 10

inductive Pc
  | opening
  | redirecting
  | reading
  | writing (line : List UInt8)
  | closing
  | leaving
  | done
  deriving DecidableEq

structure Cin (n : ℕ) where
  rdbuf : Option (Fin n)
  eofbit : Bool
  failbit : Bool

def Cin.good {n : ℕ} (c : Cin n) : Bool := !c.eofbit && !c.failbit

structure State (n : ℕ) where
  pc : Fin n → Pc
  cin : Cin n
  file : Fin n → List UInt8
  sent : Fin n → List (List UInt8)
  fault : Bool

variable {n : ℕ}

def State.goto (s : State n) (i : Fin n) (p : Pc) : State n :=
  { s with pc := Function.update s.pc i p }

/-- `getline(cin, line)` where the stream is good and reads through the buffer of `j`. -/
def getlineFrom (s : State n) (i j : Fin n) : State n :=
  if s.file j = [] then { s.goto i .closing with cin := ⟨s.cin.rdbuf, true, true⟩ }
  else
    { s.goto i (.writing (getline newline (s.file j)).1) with
      cin := { s.cin with eofbit := newline ∉ s.file j }
      file := Function.update s.file j (getline newline (s.file j)).2 }

def workerStep (text : List UInt8) (s : State n) (i : Fin n) : Option (State n) :=
  match s.pc i with
  | .opening => some { s.goto i .redirecting with file := Function.update s.file i text }
  | .redirecting => some { s.goto i .reading with cin := ⟨some i, false, false⟩ }
  | .reading =>
      if s.cin.good then
        match s.cin.rdbuf with
        | none => none
        | some j =>
            if s.pc j = .done then some { s with fault := true } else some (getlineFrom s i j)
      else some { s.goto i .closing with cin := { s.cin with failbit := true } }
  | .writing line =>
      some { s.goto i .reading with sent := Function.update s.sent i (s.sent i ++ [line]) }
  | .closing => some (s.goto i .leaving)
  | .leaving => some (s.goto i .done)
  | .done => none

def step (text : List UInt8) (s : State n) (i : Fin n) : Option (State n) :=
  if s.fault then none else workerStep text s i

def start (n : ℕ) : State n where
  pc _ := .opening
  cin := ⟨none, false, false⟩
  file _ := []
  sent _ := []
  fault := false

def program (n : ℕ) (text : List UInt8) : Machine (State n) (Fin n) where
  init := start n
  step := step text

/-- The worker has left its loop: it is at `close(client_fd)` or behind it. -/
def Pc.finished : Pc → Bool
  | .closing => true
  | .leaving => true
  | .done => true
  | _ => false

/-- Every worker that has left its loop has sent the lines of the file. -/
def WholeFile (text : List UInt8) (s : State n) : Prop :=
  ∀ i, (s.pc i).finished → s.sent i = lines newline text

/-- A worker that calls `getline` reads its own file, or finds the stream at its end after
it has read its own file to the end. -/
def OwnStream (s : State n) (i : Fin n) : Prop :=
  s.pc i = .reading → s.cin.rdbuf = some i ∨ s.cin.good = false ∧ s.file i = []

/-- What a step can do. -/
inductive Trans (text : List UInt8) (s : State n) (i : Fin n) : State n → Prop
  | opened : s.pc i = .opening →
      Trans text s i { s.goto i .redirecting with file := Function.update s.file i text }
  | redirect : s.pc i = .redirecting →
      Trans text s i { s.goto i .reading with cin := ⟨some i, false, false⟩ }
  | refused : s.pc i = .reading → s.cin.good = false →
      Trans text s i { s.goto i .closing with cin := { s.cin with failbit := true } }
  | dangling (j : Fin n) : s.pc i = .reading → s.cin.good = true → s.cin.rdbuf = some j →
      s.pc j = .done → Trans text s i { s with fault := true }
  | ended (j : Fin n) : s.pc i = .reading → s.cin.rdbuf = some j → s.file j = [] →
      Trans text s i { s.goto i .closing with cin := ⟨s.cin.rdbuf, true, true⟩ }
  | line (j : Fin n) : s.pc i = .reading → s.cin.good = true → s.cin.rdbuf = some j →
      s.file j ≠ [] →
      Trans text s i { s.goto i (.writing (getline newline (s.file j)).1) with
        cin := { s.cin with eofbit := newline ∉ s.file j }
        file := Function.update s.file j (getline newline (s.file j)).2 }
  | write (l : List UInt8) : s.pc i = .writing l →
      Trans text s i { s.goto i .reading with sent := Function.update s.sent i (s.sent i ++ [l]) }
  | closed : s.pc i = .closing → Trans text s i (s.goto i .leaving)
  | destroyed : s.pc i = .leaving → Trans text s i (s.goto i .done)

variable {text : List UInt8} {s t : State n} {i j : Fin n}

theorem workerStep_trans (h : workerStep text s i = some t) : Trans text s i t := by
  unfold workerStep at h
  cases hpc : s.pc i with
  | opening =>
      simp only [hpc] at h
      cases h
      exact .opened hpc
  | redirecting =>
      simp only [hpc] at h
      cases h
      exact .redirect hpc
  | reading =>
      simp only [hpc] at h
      split at h
      · rename_i hgood
        split at h
        · cases h
        · rename_i j hbuf
          split at h
          · rename_i hdone
            cases h
            exact .dangling j hpc hgood hbuf hdone
          · unfold getlineFrom at h
            split at h
            · rename_i hend
              cases h
              exact .ended j hpc hbuf hend
            · rename_i hmore
              cases h
              exact .line j hpc hgood hbuf hmore
      · rename_i hbad
        cases h
        exact .refused hpc (by simpa using hbad)
  | writing l =>
      simp only [hpc] at h
      cases h
      exact .write l hpc
  | closing =>
      simp only [hpc] at h
      cases h
      exact .closed hpc
  | leaving =>
      simp only [hpc] at h
      cases h
      exact .destroyed hpc
  | done => simp [hpc] at h

theorem step_trans (h : step text s i = some t) : Trans text s i t := by
  unfold step at h
  split at h
  · cases h
  · exact workerStep_trans h

/-- How far a worker is, if nobody else has read its file: what it has sent and what is
left of its file are the lines of the text. -/
def Sending (text : List UInt8) (s : State n) (i : Fin n) : Prop :=
  match s.pc i with
  | .opening => s.sent i = []
  | .redirecting => s.sent i = [] ∧ s.file i = text
  | .reading => s.sent i ++ lines newline (s.file i) = lines newline text
  | .writing l => s.sent i ++ l :: lines newline (s.file i) = lines newline text
  | .closing | .leaving | .done => s.sent i = lines newline text

structure Inv (text : List UInt8) (s : State n) : Prop where
  sending : ∀ i, Sending text s i
  ended : ∀ i, s.cin.rdbuf = some i → s.cin.good = false → s.file i = []
  early : ∀ i, s.pc i = .opening → s.cin.rdbuf ≠ some i

theorem sending_congr {j : Fin n} (h : Sending text s j) (hpc : t.pc j = s.pc j)
    (hfile : t.file j = s.file j) (hsent : t.sent j = s.sent j) : Sending text t j := by
  unfold Sending at *
  rw [hpc, hfile, hsent]
  exact h

/-- A step of worker `i` that touches no other worker's file has to keep what is said of
`i`. -/
theorem sending_frame (h : ∀ j, Sending text s j) (hi : Sending text t i)
    (hpc : ∀ j, j ≠ i → t.pc j = s.pc j) (hfile : ∀ j, j ≠ i → t.file j = s.file j)
    (hsent : ∀ j, j ≠ i → t.sent j = s.sent j) : ∀ j, Sending text t j := by
  intro j
  by_cases hj : j = i
  · exact hj ▸ hi
  · exact sending_congr (h j) (hpc j hj) (hfile j hj) (hsent j hj)

theorem Inv.step_sending (h : Inv text s) (hown : OwnStream s i) (ht : Trans text s i t) :
    ∀ j, Sending text t j := by
  have hi := h.sending i
  have hne : ∀ {β : Type} {f : Fin n → β} {x : β} {j : Fin n}, j ≠ i →
      Function.update f i x j = f j := fun hj => Function.update_of_ne hj _ _
  cases ht with
  | opened hpc =>
      refine sending_frame (i := i) h.sending ?_ (fun _ => hne) (fun _ => hne) (fun _ _ => rfl)
      simp only [Sending, hpc] at hi
      simp [Sending, State.goto, hi]
  | redirect hpc =>
      refine sending_frame (i := i) h.sending ?_ (fun _ => hne) (fun _ _ => rfl) (fun _ _ => rfl)
      simp only [Sending, hpc] at hi
      simp [Sending, State.goto, hi]
  | refused hpc hbad =>
      refine sending_frame (i := i) h.sending ?_ (fun _ => hne) (fun _ _ => rfl) (fun _ _ => rfl)
      have hend : s.file i = [] := by
        rcases hown hpc with hbuf | ⟨-, hend⟩
        · exact h.ended i hbuf hbad
        · exact hend
      simp only [Sending, hpc, hend, lines, List.append_nil] at hi
      simpa [Sending, State.goto] using hi
  | dangling j hpc hgood hbuf hdone =>
      rcases hown hpc with hmine | ⟨hbad, -⟩
      · rw [hbuf] at hmine
        cases hmine
        rw [hpc] at hdone
        cases hdone
      · rw [hgood] at hbad
        cases hbad
  | ended j hpc hbuf hend =>
      refine sending_frame (i := i) h.sending ?_ (fun _ => hne) (fun _ _ => rfl) (fun _ _ => rfl)
      have hend' : s.file i = [] := by
        rcases hown hpc with hmine | ⟨-, hend'⟩
        · rw [hbuf] at hmine
          cases hmine
          exact hend
        · exact hend'
      simp only [Sending, hpc, hend', lines, List.append_nil] at hi
      simpa [Sending, State.goto] using hi
  | line j hpc hgood hbuf hmore =>
      rcases hown hpc with hmine | ⟨hbad, -⟩
      · rw [hbuf] at hmine
        cases hmine
        refine sending_frame (i := i) h.sending ?_ (fun _ => hne) (fun _ => hne) (fun _ _ => rfl)
        simp only [Sending, hpc, lines_eq_cons hmore] at hi
        simpa [Sending, State.goto] using hi
      · rw [hgood] at hbad
        cases hbad
  | write l hpc =>
      refine sending_frame (i := i) h.sending ?_ (fun _ => hne) (fun _ _ => rfl) (fun _ => hne)
      simp only [Sending, hpc] at hi
      simpa [Sending, State.goto] using hi
  | closed hpc | destroyed hpc =>
      refine sending_frame (i := i) h.sending ?_ (fun _ => hne) (fun _ _ => rfl) (fun _ _ => rfl)
      simp only [Sending, hpc] at hi
      simpa [Sending, State.goto] using hi

theorem Inv.step_ended (h : Inv text s) (hown : OwnStream s i) (ht : Trans text s i t) :
    ∀ j, t.cin.rdbuf = some j → t.cin.good = false → t.file j = [] := by
  have he := h.ended
  cases ht with
  | opened hpc =>
      intro j hbuf hbad
      have hji : j ≠ i := by
        rintro rfl
        exact h.early j hpc hbuf
      simp only [Function.update_of_ne hji]
      exact he j hbuf hbad
  | redirect hpc =>
      intro j _ hbad
      cases hbad
  | refused hpc hbad => exact fun j hbuf _ => he j hbuf hbad
  | ended j hpc hbuf hend =>
      intro k hk _
      have hk' : s.cin.rdbuf = some k := hk
      rw [hbuf] at hk'
      cases hk'
      exact hend
  | line j hpc hgood hbuf hmore =>
      intro k hk hbad
      have hk' : s.cin.rdbuf = some k := hk
      rw [hbuf] at hk'
      cases hk'
      simp only [Function.update_self]
      have hnl : newline ∉ s.file j := by
        simp only [Cin.good, Bool.and_eq_true, Bool.not_eq_true'] at hgood
        simpa [Cin.good, hgood.2] using hbad
      rw [getline_of_notMem hnl]
  | dangling | write | closed | destroyed => exact he

theorem opening_of_goto {p : Pc} {j : Fin n} (h : (s.goto i p).pc j = .opening)
    (hp : p ≠ .opening) : j ≠ i ∧ s.pc j = .opening := by
  have hji : j ≠ i := by
    rintro rfl
    simp only [State.goto, Function.update_self] at h
    exact hp h
  simp only [State.goto, Function.update_of_ne hji] at h
  exact ⟨hji, h⟩

theorem Inv.step_early (h : Inv text s) (ht : Trans text s i t) :
    ∀ j, t.pc j = .opening → t.cin.rdbuf ≠ some j := by
  have he := h.early
  cases ht with
  | redirect _ =>
      intro j hj heq
      obtain ⟨hji, -⟩ := opening_of_goto (s := s) hj nofun
      exact hji (Option.some.inj heq).symm
  | dangling => exact he
  | opened | refused | ended | line | write | closed | destroyed =>
      exact fun j hj => he j (opening_of_goto (s := s) hj nofun).2

theorem inv_of_reachable (h : (program n text).ReachableBy OwnStream s) : Inv text s := by
  apply h.invariant (I := Inv text)
  · exact ⟨fun _ => rfl, nofun, fun _ _ => nofun⟩
  · intro s t i _ hi hc hst
    have ht := step_trans hst
    exact ⟨hi.step_sending hc ht, hi.step_ended hc ht, hi.step_early ht⟩

theorem Inv.wholeFile (h : Inv text s) : WholeFile text s := by
  intro i hi
  have hs := h.sending i
  unfold Sending at hs
  cases hpc : s.pc i with
  | closing | leaving | done => simpa only [hpc] using hs
  | opening | redirecting | reading | writing _ => simp [hpc, Pc.finished] at hi

/-- A worker behind its redirection has the stream redirected, by itself or by another. -/
theorem rdbuf_of_reachable (h : (program n text).Reachable s) :
    (∃ i, s.pc i ≠ .opening ∧ s.pc i ≠ .redirecting) → s.cin.rdbuf ≠ none := by
  apply h.invariant (I := fun s => (∃ i, s.pc i ≠ .opening ∧ s.pc i ≠ .redirecting) →
    s.cin.rdbuf ≠ none)
  · rintro ⟨i, hi, -⟩
    exact absurd rfl hi
  · intro s t i _ hinv hst
    have hkeep : (s.pc i ≠ .opening ∧ s.pc i ≠ .redirecting) → s.cin.rdbuf ≠ none :=
      fun hi => hinv ⟨i, hi⟩
    cases step_trans hst with
    | opened hpc =>
        rintro ⟨j, hj⟩
        by_cases hji : j = i
        · subst j
          simp [State.goto] at hj
        · simp only [State.goto, Function.update_of_ne hji] at hj
          exact hinv ⟨j, hj⟩
    | redirect hpc => exact fun _ => nofun
    | refused hpc | dangling _ hpc | ended _ hpc | line _ hpc | write _ hpc | closed hpc
    | destroyed hpc => exact fun _ => hkeep (by simp [hpc])

/-- One worker alone reads through its own buffer. -/
theorem ownStream_of_reachable (hn : n ≤ 1) (h : (program n text).Reachable s) :
    OwnStream s i := by
  intro hpc
  obtain ⟨j, hj⟩ := Option.ne_none_iff_exists'.1 (rdbuf_of_reachable h ⟨i, by simp [hpc]⟩)
  have hji : j = i := by
    apply Fin.ext
    have hi := i.isLt
    have hj := j.isLt
    omega
  exact .inl (hji ▸ hj)

theorem sent_of_empty (h : (program n []).Reachable s) (i : Fin n) : s.sent i = [] := by
  suffices hinv : ∀ i, s.sent i = [] ∧ s.file i = [] ∧ ∀ l, s.pc i ≠ .writing l from (hinv i).1
  apply h.invariant (I := fun s => ∀ i, s.sent i = [] ∧ s.file i = [] ∧ ∀ l, s.pc i ≠ .writing l)
  · exact fun _ => ⟨rfl, rfl, nofun⟩
  · intro s t i _ hinv hst
    have hgoto : ∀ {p : Pc}, (∀ l, p ≠ .writing l) → ∀ k l, (s.goto i p).pc k ≠ .writing l := by
      intro p hp k l
      by_cases hk : k = i
      · subst k
        simpa [State.goto] using hp l
      · simpa [State.goto, Function.update_of_ne hk] using (hinv k).2.2 l
    cases step_trans hst with
    | opened hpc =>
        intro k
        refine ⟨(hinv k).1, ?_, hgoto (p := .redirecting) nofun k⟩
        by_cases hk : k = i
        · subst k
          simp
        · simpa [Function.update_of_ne hk] using (hinv k).2.1
    | redirect hpc =>
        exact fun k => ⟨(hinv k).1, (hinv k).2.1, hgoto (p := .reading) nofun k⟩
    | refused hpc | ended _ hpc =>
        exact fun k => ⟨(hinv k).1, (hinv k).2.1, hgoto (p := .closing) nofun k⟩
    | dangling _ hpc => exact hinv
    | line j hpc hgood hbuf hmore => exact absurd (hinv j).2.1 hmore
    | write l hpc => exact absurd hpc ((hinv i).2.2 l)
    | closed hpc => exact fun k => ⟨(hinv k).1, (hinv k).2.1, hgoto (p := .leaving) nofun k⟩
    | destroyed hpc => exact fun k => ⟨(hinv k).1, (hinv k).2.1, hgoto (p := .done) nofun k⟩

/-- A worker can read the file of another to its end, while the other stands at its own
`getline`. -/
theorem drained (hij : i ≠ j) (hr : (program n text).Reachable s) (hf : s.fault = false)
    (hi : s.pc i = .reading) (hj : s.pc j = .reading) (hbuf : s.cin.rdbuf = some j) :
    ∃ t, (program n text).Reachable t ∧ t.fault = false ∧ t.pc j = .reading ∧
      t.sent j = s.sent j ∧ t.cin.good = false := by
  induction hlen : (s.file j).length using Nat.strong_induction_on generalizing s with
  | _ len ih =>
      cases hgood : s.cin.good with
      | false => exact ⟨s, hr, hf, hj, rfl, hgood⟩
      | true =>
          have hne : j ≠ i := fun h => hij h.symm
          have hread : (program n text).step s i = some (getlineFrom s i j) := by
            simp [program, step, workerStep, hf, hi, hj, hgood, hbuf]
          have hr' := hr.step hread
          by_cases hend : s.file j = []
          · refine ⟨_, hr', ?_⟩
            simp [getlineFrom, hend, State.goto, hf, hj, hne, Cin.good]
          · set u := getlineFrom s i j with hu
            set l := (getline newline (s.file j)).1 with hl
            have hwrite : (program n text).step u i = some { u.goto i .reading with
                sent := Function.update u.sent i (u.sent i ++ [l]) } := by
              simp [program, step, workerStep, hu, getlineFrom, hend, State.goto, hf, hl]
            have hr'' := hr'.step hwrite
            have hless : (u.file j).length < len := by
              rw [← hlen]
              simpa [hu, getlineFrom, hend] using length_getline_lt hend
            obtain ⟨t, ht, hft, hjt, hst, hbad⟩ := ih _ hless hr''
              (by simp [hu, getlineFrom, hend, State.goto, hf]) (by simp [State.goto])
              (by simp [hu, getlineFrom, hend, State.goto, hj, hne])
              (by simp [hu, getlineFrom, hend, State.goto, hbuf]) rfl
            refine ⟨t, ht, hft, hjt, hst.trans ?_, hbad⟩
            simp [hu, getlineFrom, hend, State.goto, hne]

theorem exists_both_reading (hij : i ≠ j) (text : List UInt8) :
    ∃ s, (program n text).Reachable s ∧ s.fault = false ∧ s.pc i = .reading ∧
      s.pc j = .reading ∧ s.cin.rdbuf = some j ∧ s.sent j = [] := by
  have hne : j ≠ i := fun h => hij h.symm
  have hrun : ((program n text).run [i, j, i, j]).map
      (fun s => (s.fault, s.pc i, s.pc j, s.cin.rdbuf, s.sent j)) =
      some (false, .reading, .reading, some j, []) := by
    simp [Machine.run, Machine.runFrom, program, step, workerStep, start, State.goto, hij, hne]
  obtain ⟨s, -, hr, hs⟩ := Machine.reachable_of_run_map hrun
  simp only [Prod.mk.injEq] at hs
  exact ⟨s, hr, hs⟩

/-- Two workers are enough to lose a file: one of them finds it read to its end. -/
theorem exists_not_wholeFile (hij : i ≠ j) (htext : text ≠ []) :
    ∃ s, (program n text).Reachable s ∧ ¬ WholeFile text s := by
  obtain ⟨s, hr, hf, hi, hj, hbuf, hsent⟩ := exists_both_reading hij text
  obtain ⟨t, ht, hft, hjt, hst, hbad⟩ := drained hij hr hf hi hj hbuf
  have hstep : (program n text).step t j =
      some { t.goto j .closing with cin := { t.cin with failbit := true } } := by
    simp [program, step, workerStep, hft, hjt, hbad]
  refine ⟨_, ht.step hstep, fun hwhole => ?_⟩
  have hlines := hwhole j (by simp [State.goto, Pc.finished])
  exact htext (lines_eq_nil_iff.1 (hlines.symm.trans (hst.trans hsent)))

/-- Every worker that leaves its loop has sent the whole file in every run of the workers
exactly if there is one worker or the file is empty. With more workers it holds in the runs
in which every `getline` reads through the buffer of its own worker. -/
theorem wholeFile_iff (n : ℕ) (text : List UInt8) :
    ((∀ s, (program n text).Reachable s → WholeFile text s) ↔ n ≤ 1 ∨ text = []) ∧
      ∀ s, (program n text).ReachableBy OwnStream s → WholeFile text s := by
  refine ⟨⟨?_, ?_⟩, fun s h => (inv_of_reachable h).wholeFile⟩
  · intro hall
    by_contra hneg
    obtain ⟨hn, htext⟩ := not_or.1 hneg
    have hij : (⟨0, by omega⟩ : Fin n) ≠ ⟨1, by omega⟩ := by simp
    obtain ⟨s, hs, hnot⟩ := exists_not_wholeFile hij htext
    exact hnot (hall s hs)
  · rintro (hn | rfl) s hs
    · have hown := hs.mono_reachable (D := OwnStream)
        (fun _ _ hr _ => ownStream_of_reachable hn hr)
      exact (inv_of_reachable hown).wholeFile
    · exact fun i _ => sent_of_empty hs i

/-- `OwnStream` on two workers. -/
def ownStream (s : State 2) (i : Fin 2) : Bool :=
  s.pc i = .reading → s.cin.rdbuf = some i ∨ s.cin.good = false ∧ s.file i = []

/-- The second worker redirects the stream when the first has read its two lines and not yet
seen the end of its file. -/
def inTurns : List (Fin 2) :=
  List.replicate 6 ⟨0, Nat.zero_lt_two⟩ ++ List.replicate 6 ⟨1, Nat.one_lt_two⟩ ++
    [⟨0, Nat.zero_lt_two⟩, ⟨1, Nat.one_lt_two⟩]

theorem wholeFile_iff_inTurns :
    ∃ s, (program 2 [97, newline, 98]).ReachableBy OwnStream s ∧
      ∀ i, (s.pc i).finished = true ∧ s.sent i = lines newline [97, newline, 98] := by
  have hrun : ((program 2 [97, newline, 98]).checkedFrom ownStream
      (program 2 [97, newline, 98]).init inTurns).map (fun s =>
        (s.pc ⟨0, Nat.zero_lt_two⟩, s.pc ⟨1, Nat.one_lt_two⟩)) = some (.closing, .closing) := by
    decide +kernel
  obtain ⟨s, hs, hv⟩ := Machine.reachableBy_of_checked hrun
  have hown : (program 2 [97, newline, 98]).ReachableBy OwnStream s :=
    hs.mono (fun s i h hpc => by simpa [ownStream, hpc] using h)
  have hpc : ∀ i, s.pc i = .closing := Fin.forall_fin_two.2 (Prod.mk.inj hv)
  have hwhole := (wholeFile_iff 2 [97, newline, 98]).2 s hown
  refine ⟨s, hown, fun i => ?_⟩
  have hfinished : (s.pc i).finished = true := by rw [hpc i]; rfl
  exact ⟨hfinished, hwhole i hfinished⟩

/-- Two workers on a file of one line: the first reads it through the buffer of the second,
which leaves with nothing sent. -/
theorem second_sends_nothing :
    ¬ ∀ s, (program 2 [97, newline]).Reachable s → WholeFile [97, newline] s := by
  intro hall
  have hrun : ((program 2 [97, newline]).run [0, 1, 0, 1, 0, 0, 0, 1]).map
      (fun s => (s.pc 1, s.sent 0, s.sent 1)) = some (.closing, [[97]], []) := by
    decide +kernel
  obtain ⟨s, -, hr, hs⟩ := Machine.reachable_of_run_map hrun
  simp only [Prod.mk.injEq] at hs
  have hlines := hall s hr 1 (by rw [hs.1]; rfl)
  rw [hs.2.2] at hlines
  exact absurd hlines (by decide)

end Londa.ReusePortClient
