import Mathlib.Data.Int.Basic
import Londa.Machine

/-!
# A shell on an object in shared memory

Model of the commands of `code/IPC/SHM/SystemV/placement.cpp`. The results of the system
calls are part of the action: `shmat` answers with `(void*)-1`, or with an address at which
nothing is attached yet; `shmdt` succeeds only where a segment is attached. `segments` are
the segments attached at the moment, each with the `count` of the object in it. An access at
any other address is recorded in `fault`, after which no command runs.

No global is reset by `dettach`, and the only test is one for the null pointer. `Session` is
the discipline of a user under which that test is enough.
-/

namespace Londa.Placement

abbrev Ptr := ℕ

def NULL : Ptr := 0

/-- What `shmat` returns on failure, `(void*)-1`. -/
def failed : Ptr := 2 ^ 64 - 1

structure State where
  shm_id : ℤ
  shm_addr : Ptr
  shm_object : Ptr
  segments : List (Ptr × ℤ)
  fault : Bool
  deriving DecidableEq

/-- A line of output. `callAttach` is the error of the commands on the object. -/
inductive Line
  | attachError (server : Bool) (errno : ℕ)
  | attachSucc (server : Bool) (id : ℤ) (address object : Ptr)
  | dettachError (errno : ℕ)
  | createError
  | createSucc (server : Bool) (address object : Ptr)
  | callAttach (func : String)
  | constructor
  | count (n : ℤ)
  deriving DecidableEq

def Line.isError : Line → Bool
  | .attachError _ _ | .dettachError _ | .createError | .callAttach _ => true
  | .attachSucc _ _ _ _ | .createSucc _ _ _ | .constructor | .count _ => false

inductive Command
  | attach
  | dettach
  | create
  | increase
  | decrease
  | print
  deriving DecidableEq

/-- A command with the results of the system calls it makes. -/
inductive Act
  | attach (shmget : ℤ) (shmat : Option (Ptr × ℤ)) (errno : ℕ)
  | dettach (shmdt shmctl : Bool) (errno : ℕ)
  | create
  | increase
  | decrease
  | print
  deriving DecidableEq

def Act.command : Act → Command
  | .attach _ _ _ => .attach
  | .dettach _ _ _ => .dettach
  | .create => .create
  | .increase => .increase
  | .decrease => .decrease
  | .print => .print

def State.Attached (s : State) (p : Ptr) : Prop := p ∈ s.segments.map Prod.fst

instance (s : State) (p : Ptr) : Decidable (s.Attached p) :=
  inferInstanceAs (Decidable (p ∈ s.segments.map Prod.fst))

def State.setCount (s : State) (p : Ptr) (n : ℤ) : State :=
  { s with segments := s.segments.map fun b => if b.1 = p then (p, n) else b }

def attach (server : Bool) (s : State) (shmget : ℤ) (shmat : Option (Ptr × ℤ)) (errno : ℕ) :
    Option (State × List Line) :=
  if shmget < 0 then some ({ s with shm_id := shmget }, [.attachError server errno])
  else
    match shmat with
    | none =>
        -- The code compares with the null pointer only.
        some ({ s with shm_id := shmget, shm_addr := failed },
          [.attachSucc server shmget failed s.shm_object])
    | some (p, n) =>
        if p ≠ NULL ∧ p ≠ failed ∧ ¬ s.Attached p then
          some ({ s with shm_id := shmget, shm_addr := p, segments := (p, n) :: s.segments },
            [.attachSucc server shmget p s.shm_object])
        else none

def dettach (s : State) (shmdt shmctl : Bool) (errno : ℕ) : Option (State × List Line) :=
  if shmdt then
    if s.Attached s.shm_addr then
      some ({ s with segments := s.segments.filter fun b => b.1 ≠ s.shm_addr },
        if shmctl then [] else [.dettachError errno])
    else none
  else some (s, [.dettachError errno])

def create (server : Bool) (s : State) : State × List Line :=
  if server then
    if s.Attached s.shm_addr then
      let t := { s.setCount s.shm_addr 100 with shm_object := s.shm_addr }
      if t.shm_object = NULL then (t, [.constructor, .createError])
      else (t, [.constructor, .createSucc server t.shm_addr t.shm_object])
    else ({ s with fault := true }, [])
  else
    ({ s with shm_object := s.shm_addr }, [.createSucc server s.shm_addr s.shm_addr])

/-- A method of the object at `p`: it stores a count and prints it. -/
def method (f : ℤ → ℤ) (s : State) (p : Ptr) : State × List Line :=
  match s.segments.lookup p with
  | none => ({ s with fault := true }, [])
  | some n => (s.setCount p (f n), [.count (f n)])

/-- A command on the object. `name` is the function that its error names. -/
def onObject (name : String) (f : ℤ → ℤ) (s : State) : State × List Line :=
  if s.shm_object ≠ NULL then method f s s.shm_object else (s, [.callAttach name])

def increase : State → State × List Line := onObject "increase" (· + 1)

def decrease : State → State × List Line := onObject "increase" (· - 1)

def print : State → State × List Line := onObject "print" id

def exec (server : Bool) (s : State) : Act → Option (State × List Line)
  | .attach shmget shmat errno => attach server s shmget shmat errno
  | .dettach shmdt shmctl errno => dettach s shmdt shmctl errno
  | .create => some (create server s)
  | .increase => some (increase s)
  | .decrease => some (decrease s)
  | .print => some (print s)

def start : State where
  shm_id := 0
  shm_addr := NULL
  shm_object := NULL
  segments := []
  fault := false

def program (server : Bool) : Machine State Act where
  init := start
  step s a := if s.fault then none else (exec server s a).map Prod.fst

/-- The address that a command on the segment or on the object works at. -/
def State.target (s : State) : Command → Option Ptr
  | .attach => none
  | .dettach => none
  | .create => some s.shm_addr
  | .increase => some s.shm_object
  | .decrease => some s.shm_object
  | .print => some s.shm_object

/-- The command reports an error and changes nothing. -/
def Refused (server : Bool) (s : State) (a : Act) : Prop :=
  ∃ out, exec server s a = some (s, out) ∧ out.any Line.isError

/-- The command works at the start of an attached segment, or is refused. -/
def Guarded (server : Bool) (s : State) (a : Act) : Prop :=
  ∀ p, s.target a.command = some p → s.Attached p ∨ Refused server s a

/-- Where the object of the session is: in the segment attached last, in an earlier segment
that stays attached, or in one that was detached. -/
inductive Object
  | null
  | current
  | kept
  | stale
  deriving DecidableEq

/-- What a user knows of the shell from the commands and the results of their calls. -/
structure Session where
  attached : Bool
  object : Object
  deriving DecidableEq

/-- After another `attach` the current segment is an earlier one. -/
def Object.leave : Object → Object
  | .current => .kept
  | o => o

/-- After `dettach` the current segment is gone. -/
def Object.drop : Object → Object
  | .current => .stale
  | o => o

/-- The session after a command, or `none` where the user may not give it: `create` needs a
segment, and a command on the object needs one that was not detached. -/
def Session.next (σ : Session) : Act → Option Session
  | .attach shmget shmat _ =>
      some (if shmget < 0 then σ else ⟨shmat.isSome, σ.object.leave⟩)
  | .dettach shmdt _ _ => some (if shmdt then ⟨false, σ.object.drop⟩ else σ)
  | .create => if σ.attached then some ⟨true, .current⟩ else none
  | .increase | .decrease | .print => if σ.object = .stale then none else some σ

def Session.accepts (σ : Session) : List Act → Bool
  | [] => true
  | a :: as =>
      match σ.next a with
      | none => false
      | some τ => τ.accepts as

def Session.fresh : Session := ⟨false, .null⟩

/-- The session is right about the shell. -/
structure Tracks (σ : Session) (s : State) : Prop where
  valid : ∀ p, s.Attached p → p ≠ NULL ∧ p ≠ failed
  addr : σ.attached = true → s.Attached s.shm_addr
  null : σ.object = .null → s.shm_object = NULL
  current : σ.object = .current → s.shm_object = s.shm_addr ∧ s.Attached s.shm_addr
  kept : σ.object = .kept → s.Attached s.shm_object ∧ s.shm_object ≠ s.shm_addr

/-- The command looks at the object only. -/
def Act.usesObject : Act → Bool
  | .increase | .decrease | .print => true
  | .attach _ _ _ | .dettach _ _ _ | .create => false

/-- What a command can do. -/
inductive Trans (server : Bool) (s : State) : Act → State → Prop
  | noSegment (id : ℤ) (r : Option (Ptr × ℤ)) (e : ℕ) : id < 0 →
      Trans server s (.attach id r e) { s with shm_id := id }
  | unmapped (id : ℤ) (e : ℕ) : 0 ≤ id →
      Trans server s (.attach id none e) { s with shm_id := id, shm_addr := failed }
  | mapped (id : ℤ) (p : Ptr) (n : ℤ) (e : ℕ) : 0 ≤ id → p ≠ NULL → p ≠ failed →
      ¬ s.Attached p → Trans server s (.attach id (some (p, n)) e)
        { s with shm_id := id, shm_addr := p, segments := (p, n) :: s.segments }
  | unattached (c : Bool) (e : ℕ) : s.Attached s.shm_addr →
      Trans server s (.dettach true c e)
        { s with segments := s.segments.filter fun b => b.1 ≠ s.shm_addr }
  | notDetached (c : Bool) (e : ℕ) : Trans server s (.dettach false c e) s
  | constructed : server = true → s.Attached s.shm_addr →
      Trans server s .create { s.setCount s.shm_addr 100 with shm_object := s.shm_addr }
  | wild : server = true → ¬ s.Attached s.shm_addr →
      Trans server s .create { s with fault := true }
  | adopted : server = false → Trans server s .create { s with shm_object := s.shm_addr }
  | refused {a : Act} : a.usesObject = true → s.shm_object = NULL → Trans server s a s
  | called {a : Act} (n : ℤ) : a.usesObject = true → s.shm_object ≠ NULL →
      s.Attached s.shm_object →
      Trans server s a (s.setCount s.shm_object n)
  | dangling {a : Act} : a.usesObject = true → s.shm_object ≠ NULL →
      ¬ s.Attached s.shm_object →
      Trans server s a { s with fault := true }

variable {server : Bool} {s t : State} {σ τ : Session} {a : Act} {p q : Ptr}

theorem attached_iff_lookup : s.Attached p ↔ ∃ n, s.segments.lookup p = some n := by
  unfold State.Attached
  rw [← Option.isSome_iff_exists, List.lookup_isSome_iff, List.mem_map]
  simp only [beq_iff_eq, @eq_comm Ptr p]

theorem onObject_trans {name : String} {f : ℤ → ℤ} (ha : a.usesObject = true)
    (h : t = (onObject name f s).1) : Trans server s a t := by
  unfold onObject at h
  split at h
  · rename_i hobj
    unfold method at h
    split at h
    · rename_i hnone
      subst h
      refine .dangling ha hobj fun hatt => ?_
      obtain ⟨n, hn⟩ := attached_iff_lookup.1 hatt
      rw [hnone] at hn
      cases hn
    · rename_i n hn
      subst h
      exact .called (f n) ha hobj (attached_iff_lookup.2 ⟨n, hn⟩)
  · rename_i hobj
    subst h
    exact .refused ha (not_not.1 hobj)

theorem attach_trans {id : ℤ} {r : Option (Ptr × ℤ)} {e : ℕ} {out : List Line}
    (h : attach server s id r e = some (t, out)) : Trans server s (.attach id r e) t := by
  unfold attach at h
  split at h
  · rename_i hid
    cases h
    exact .noSegment id r e hid
  · rename_i hid
    have hid' : 0 ≤ id := Int.not_lt.1 hid
    split at h
    · cases h
      exact .unmapped id e hid'
    · split at h
      · rename_i q n hp
        cases h
        exact .mapped id q n e hid' hp.1 hp.2.1 hp.2.2
      · cases h

theorem dettach_trans {d c : Bool} {e : ℕ} {out : List Line}
    (h : dettach s d c e = some (t, out)) : Trans server s (.dettach d c e) t := by
  unfold dettach at h
  split at h
  · rename_i hd
    subst hd
    split at h
    · rename_i hatt
      cases h
      exact .unattached c e hatt
    · cases h
  · rename_i hd
    rw [Bool.not_eq_true] at hd
    subst hd
    cases h
    exact .notDetached c e

theorem create_trans (h : t = (create server s).1) : Trans server s .create t := by
  unfold create at h
  split at h
  · rename_i hserver
    split at h
    · rename_i hatt
      have heq : t = { s.setCount s.shm_addr 100 with shm_object := s.shm_addr } := by
        rw [h]
        dsimp only
        split <;> rfl
      rw [heq]
      exact .constructed hserver hatt
    · rename_i hatt
      subst h
      exact .wild hserver hatt
  · rename_i hserver
    subst h
    exact .adopted (by simpa using hserver)

theorem step_trans (h : (program server).step s a = some t) : Trans server s a t := by
  simp only [program] at h
  split at h
  · cases h
  · obtain ⟨⟨u, out⟩, hexec, rfl⟩ := Option.map_eq_some_iff.1 h
    cases a with
    | attach id r e => exact attach_trans hexec
    | dettach d c e => exact dettach_trans hexec
    | create => exact create_trans (congrArg Prod.fst (Option.some.inj hexec)).symm
    | increase | decrease | print =>
        exact onObject_trans rfl (congrArg Prod.fst (Option.some.inj hexec)).symm

@[simp] theorem attached_setCount {n : ℤ} : (s.setCount q n).Attached p ↔ s.Attached p := by
  have hmap : (s.setCount q n).segments.map Prod.fst = s.segments.map Prod.fst := by
    simp only [State.setCount, List.map_map]
    apply List.map_congr_left
    intro b _
    simp only [Function.comp_apply]
    split
    · rename_i hb
      exact hb.symm
    · rfl
  unfold State.Attached
  rw [hmap]

theorem attached_cons {n : ℤ} {id : ℤ} {addr : Ptr} :
    State.Attached { s with shm_id := id, shm_addr := addr, segments := (q, n) :: s.segments } p ↔
      p = q ∨ s.Attached p := by
  simp [State.Attached]

theorem attached_filter :
    State.Attached { s with segments := s.segments.filter fun b => b.1 ≠ q } p ↔
      s.Attached p ∧ p ≠ q := by
  simp only [State.Attached, List.mem_map, List.mem_filter, decide_eq_true_eq]
  constructor
  · rintro ⟨b, ⟨hb, hne⟩, rfl⟩
    exact ⟨⟨b, hb, rfl⟩, hne⟩
  · rintro ⟨⟨b, hb, rfl⟩, hne⟩
    exact ⟨b, ⟨hb, hne⟩, rfl⟩

theorem leave_eq_kept {o : Object} : o.leave = .kept ↔ o = .current ∨ o = .kept := by
  cases o <;> simp [Object.leave]

/-- The object of a session that goes on to another segment stays attached, and is not at
an address that was free. -/
theorem Tracks.leave (h : Tracks σ s) (ho : σ.object.leave = .kept)
    (hq : ¬ s.Attached q) : s.Attached s.shm_object ∧ s.shm_object ≠ q := by
  have hobj : s.Attached s.shm_object := by
    rcases leave_eq_kept.1 ho with hcur | hkept
    · obtain ⟨heq, hatt⟩ := h.current hcur
      rwa [heq]
    · exact (h.kept hkept).1
  exact ⟨hobj, fun heq => hq (heq ▸ hobj)⟩

theorem Tracks.attach (h : Tracks σ s) {id : ℤ} {r : Option (Ptr × ℤ)} {e : ℕ}
    (hst : Trans server s (.attach id r e) t) :
    Tracks (if id < 0 then σ else ⟨r.isSome, σ.object.leave⟩) t := by
  cases hst with
  | noSegment _ _ _ hid =>
      rw [if_pos hid]
      exact ⟨h.valid, h.addr, h.null, h.current, h.kept⟩
  | unmapped _ _ hid =>
      rw [if_neg (Int.not_lt.2 hid)]
      have hfree : ¬ s.Attached failed := fun hatt => (h.valid failed hatt).2 rfl
      refine ⟨h.valid, nofun, ?_, ?_, fun ho => h.leave ho hfree⟩
      · cases ho : σ.object with
        | null => exact fun _ => h.null ho
        | current | kept | stale => simp [Object.leave]
      · cases σ.object <;> simp [Object.leave]
  | mapped _ p n _ hid hnull hfailed hfree =>
      rw [if_neg (Int.not_lt.2 hid)]
      refine ⟨?_, fun _ => attached_cons.2 (.inl rfl), ?_, ?_, fun ho => ?_⟩
      · intro q hq
        rcases attached_cons.1 hq with rfl | hq
        · exact ⟨hnull, hfailed⟩
        · exact h.valid q hq
      · cases ho : σ.object with
        | null => exact fun _ => h.null ho
        | current | kept | stale => simp [Object.leave]
      · cases σ.object <;> simp [Object.leave]
      · obtain ⟨hatt, hne⟩ := h.leave ho hfree
        exact ⟨attached_cons.2 (.inr hatt), hne⟩
  | refused hu | called _ hu | dangling hu => cases hu

theorem Tracks.dettach (h : Tracks σ s) {d c : Bool} {e : ℕ}
    (hst : Trans server s (.dettach d c e) t) :
    Tracks (if d then ⟨false, σ.object.drop⟩ else σ) t := by
  cases hst with
  | unattached _ _ hatt =>
      refine ⟨fun p hp => h.valid p (attached_filter.1 hp).1, nofun, ?_, ?_, ?_⟩
      · cases ho : σ.object with
        | null => exact fun _ => h.null ho
        | current | kept | stale => simp [Object.drop]
      · cases σ.object <;> simp [Object.drop]
      · cases ho : σ.object with
        | kept =>
            intro _
            obtain ⟨hobj, hne⟩ := h.kept ho
            exact ⟨attached_filter.2 ⟨hobj, hne⟩, hne⟩
        | null | current | stale => simp [Object.drop]
  | notDetached => exact h
  | refused hu | called _ hu | dangling hu => cases hu

theorem Tracks.create (h : Tracks σ s) (ha : σ.attached = true)
    (hst : Trans server s .create t) : Tracks ⟨true, .current⟩ t := by
  have hatt := h.addr ha
  cases hst with
  | constructed =>
      have hkeep : ∀ p, State.Attached
          { s.setCount s.shm_addr 100 with shm_object := s.shm_addr } p ↔ s.Attached p :=
        fun _ => attached_setCount
      refine ⟨fun p hp => h.valid p ((hkeep p).1 hp), fun _ => (hkeep _).2 hatt, nofun,
        fun _ => ⟨rfl, (hkeep _).2 hatt⟩, nofun⟩
  | wild _ hfree => exact absurd hatt hfree
  | adopted => exact ⟨h.valid, fun _ => hatt, nofun, fun _ => ⟨rfl, hatt⟩, nofun⟩
  | refused hu | called _ hu | dangling hu => cases hu

/-- The object is attached in a session that knows of one and has not detached it. -/
theorem Tracks.object (h : Tracks σ s) (hstale : σ.object ≠ .stale) :
    s.shm_object = NULL ∨ s.Attached s.shm_object := by
  cases ho : σ.object with
  | null => exact .inl (h.null ho)
  | current =>
      obtain ⟨heq, hatt⟩ := h.current ho
      exact .inr (heq ▸ hatt)
  | kept => exact .inr (h.kept ho).1
  | stale => exact absurd ho hstale

theorem Tracks.use (h : Tracks σ s) (ha : a.usesObject = true) (hstale : σ.object ≠ .stale)
    (hst : Trans server s a t) : Tracks σ t := by
  cases hst with
  | refused => exact h
  | called n =>
      exact ⟨fun p hp => h.valid p (attached_setCount.1 hp),
        fun hσ => attached_setCount.2 (h.addr hσ), h.null,
        fun ho => ⟨(h.current ho).1, attached_setCount.2 (h.current ho).2⟩,
        fun ho => ⟨attached_setCount.2 (h.kept ho).1, (h.kept ho).2⟩⟩
  | dangling _ hne hfree =>
      rcases h.object hstale with hnull | hatt
      · exact absurd hnull hne
      · exact absurd hatt hfree
  | noSegment | unmapped | mapped | unattached | notDetached | constructed | wild | adopted =>
      cases ha

theorem next_of_usesObject (ha : a.usesObject = true) :
    σ.next a = if σ.object = .stale then none else some σ := by
  cases a with
  | increase | decrease | print => rfl
  | attach | dettach | create => cases ha

theorem Tracks.step (h : Tracks σ s) (hn : σ.next a = some τ) (hst : Trans server s a t) :
    Tracks τ t := by
  cases ha : a.usesObject with
  | true =>
      rw [next_of_usesObject ha] at hn
      split at hn
      · cases hn
      · rename_i hstale
        cases hn
        exact h.use ha hstale hst
  | false =>
      cases a with
      | attach id r e =>
          cases hn
          exact h.attach hst
      | dettach d c e =>
          cases hn
          exact h.dettach hst
      | create =>
          simp only [Session.next] at hn
          split at hn
          · rename_i hatt
            cases hn
            exact h.create hatt hst
          · cases hn
      | increase | decrease | print => cases ha

/-- A command on an object that is null is refused. -/
theorem refused_of_null (ha : a.usesObject = true) (h : s.shm_object = NULL) :
    Refused server s a := by
  cases a with
  | increase => exact ⟨[.callAttach "increase"], by simp [exec, increase, onObject, h], rfl⟩
  | decrease => exact ⟨[.callAttach "increase"], by simp [exec, decrease, onObject, h], rfl⟩
  | print => exact ⟨[.callAttach "print"], by simp [exec, print, onObject, h], rfl⟩
  | attach | dettach | create => cases ha

theorem target_of_usesObject (ha : a.usesObject = true) (hp : s.target a.command = some p) :
    p = s.shm_object := by
  cases a with
  | increase | decrease | print => exact (Option.some.inj hp).symm
  | attach | dettach | create => cases ha

theorem Tracks.guarded (h : Tracks σ s) (hn : σ.next a = some τ) : Guarded server s a := by
  intro p hp
  cases ha : a.usesObject with
  | true =>
      rw [next_of_usesObject ha] at hn
      split at hn
      · cases hn
      · rename_i hstale
        rw [target_of_usesObject ha hp]
        rcases h.object hstale with hnull | hatt
        · exact .inr (refused_of_null ha hnull)
        · exact .inl hatt
  | false =>
      cases a with
      | create =>
          simp only [Session.next] at hn
          split at hn
          · rename_i hatt
            cases hp
            exact .inl (h.addr hatt)
          · cases hn
      | attach | dettach => cases hp
      | increase | decrease | print => cases ha

theorem Tracks.meets {as : List Act} (h : Tracks σ s) (has : σ.accepts as = true) :
    (program server).Meets (Guarded server) s as := by
  induction as generalizing σ s with
  | nil => trivial
  | cons a as ih =>
      unfold Session.accepts at has
      split at has
      · cases has
      · rename_i τ hn
        exact ⟨h.guarded hn, fun t hst => ih (h.step hn (step_trans hst)) has⟩

theorem tracks_start : Tracks .fresh start where
  valid _ hp := by cases hp
  addr := nofun
  null _ := rfl
  current := nofun
  kept := nofun

theorem object_null_step (h : s.shm_object = NULL) (ha : a.command ≠ .create)
    (hst : Trans server s a t) : t.shm_object = NULL := by
  cases hst with
  | constructed | wild | adopted => exact absurd rfl ha
  | noSegment | unmapped | mapped | unattached | notDetached | refused | called | dangling =>
      exact h

theorem guarded_of_object_null (h : s.shm_object = NULL) (ha : a.command ≠ .create) :
    Guarded server s a := by
  intro p hp
  cases a with
  | attach | dettach => cases hp
  | create => exact absurd rfl ha
  | increase | decrease | print => exact .inr (refused_of_null rfl h)

/-- Without `create` there is no object, and every command on it is refused. -/
theorem meets_of_no_create {as : List Act} (h : s.shm_object = NULL)
    (has : .create ∉ as.map Act.command) : (program server).Meets (Guarded server) s as := by
  induction as generalizing s with
  | nil => trivial
  | cons a as ih =>
      rw [List.map_cons, List.mem_cons, not_or] at has
      have ha : a.command ≠ .create := fun heq => has.1 heq.symm
      exact ⟨guarded_of_object_null h ha,
        fun t hst => ih (object_null_step h ha (step_trans hst)) has.2⟩

/-- The command with system calls that fail. -/
def Command.failing : Command → Act
  | .attach => .attach 0 none 0
  | .dettach => .dettach false false 0
  | .create => .create
  | .increase => .increase
  | .decrease => .decrease
  | .print => .print

theorem command_failing (c : Command) : c.failing.command = c := by cases c <;> rfl

/-- Nothing was ever attached and no object was made. -/
structure Bare (s : State) : Prop where
  segments : s.segments = []
  object : s.shm_object = NULL
  running : s.fault = false

theorem Bare.step (h : Bare s) {c : Command} (hc : c ≠ .create) :
    ∃ t, (program server).step s c.failing = some t ∧ Bare t := by
  cases c with
  | attach =>
      refine ⟨{ s with shm_id := 0, shm_addr := failed }, ?_, h.segments, h.object, h.running⟩
      simp [program, h.running, Command.failing, exec, attach]
  | dettach =>
      refine ⟨s, ?_, h⟩
      simp [program, h.running, Command.failing, exec, dettach]
  | create => exact absurd rfl hc
  | increase | decrease | print =>
      refine ⟨s, ?_, h⟩
      simp [program, h.running, Command.failing, exec, increase, decrease, print, onObject,
        h.object]

theorem Bare.not_guarded_create (h : Bare s) : ¬ Guarded server s .create := by
  intro hg
  have hfree : ¬ s.Attached s.shm_addr := by simp [State.Attached, h.segments]
  rcases hg s.shm_addr rfl with hatt | ⟨out, hexec, herr⟩
  · exact hfree hatt
  · cases server with
    | true =>
        simp only [exec, create, if_neg hfree, if_true, Option.some.injEq, Prod.mk.injEq] at hexec
        rw [← hexec.2] at herr
        cases herr
    | false =>
        simp only [exec, create, Bool.false_eq_true, if_false, Option.some.injEq,
          Prod.mk.injEq] at hexec
        rw [← hexec.2] at herr
        cases herr

/-- The first `create` works at an address where nothing is attached, if every call before
it failed. -/
theorem Bare.not_meets {cs : List Command} (h : Bare s) (hcs : .create ∈ cs) :
    ¬ (program server).Meets (Guarded server) s (cs.map Command.failing) := by
  induction cs generalizing s with
  | nil => cases hcs
  | cons c cs ih =>
      intro hm
      by_cases hc : c = .create
      · subst hc
        exact h.not_guarded_create hm.1
      · have hrest : .create ∈ cs := (List.mem_cons.1 hcs).resolve_left fun heq => hc heq.symm
        obtain ⟨t, hst, ht⟩ : ∃ t, (program server).step s c.failing = some t ∧ Bare t := h.step hc
        exact ih ht hrest (hm.2 t hst)

/-- A sequence of commands is guarded whatever the system calls answer exactly if it has no
`create`. A sequence that keeps the discipline of a session is guarded with the answers it
got. -/
theorem guarded_iff (server : Bool) :
    (∀ cs : List Command, (∀ as : List Act, as.map Act.command = cs →
      (program server).Meets (Guarded server) (program server).init as) ↔ .create ∉ cs) ∧
      ∀ as, Session.fresh.accepts as = true →
        (program server).Meets (Guarded server) (program server).init as := by
  refine ⟨fun cs => ⟨?_, ?_⟩, fun as has => tracks_start.meets has⟩
  · intro hall hcs
    have hbare : Bare start := ⟨rfl, rfl, rfl⟩
    have hmap : (cs.map Command.failing).map Act.command = cs := by
      rw [List.map_map]
      exact (List.map_congr_left fun c _ => command_failing c).trans (List.map_id cs)
    exact hbare.not_meets hcs (hall _ hmap)
  · rintro hcs as rfl
    exact meets_of_no_create rfl hcs

/-- An `increase` too early, a whole session and a second one that fails to attach. -/
def sessions : List Act :=
  [.increase, .attach 0 (some (4096, 0)) 0, .create, .increase, .print, .dettach true true 0,
    .attach 0 none 0]

theorem guarded_iff_sessions : .create ∈ sessions.map Act.command ∧
    (∃ s, (program true).run sessions = some s) ∧
    (program true).Meets (Guarded true) (program true).init sessions := by
  have hrun : ((program true).run sessions).isSome = true := by decide +kernel
  exact ⟨by decide, Option.isSome_iff_exists.1 hrun, (guarded_iff true).2 sessions (by decide)⟩

/-- A server whose `shmat` fails constructs its object at `(void*)-1`; one that detaches its
segment goes on counting at the old address. -/
theorem wild_accesses :
    ¬ (program true).Meets (Guarded true) (program true).init [.attach 0 none 0, .create] ∧
      ¬ (program true).Meets (Guarded true) (program true).init
        [.attach 0 (some (4096, 0)) 0, .create, .dettach true true 0, .increase] := by
  constructor
  · have hbare : Bare start := ⟨rfl, rfl, rfl⟩
    have hcreate : Command.create ∈ [Command.attach, .create] := by decide
    exact hbare.not_meets hcreate
  · intro hm
    have hmade := hm.2 ⟨0, 4096, NULL, [(4096, 0)], false⟩ (by decide)
    have hgone := hmade.2 ⟨0, 4096, 4096, [(4096, 100)], false⟩ (by decide)
    have hg := (hgone.2 ⟨0, 4096, 4096, [], false⟩ (by decide)).1
    rcases hg 4096 rfl with hatt | ⟨out, hexec, -⟩
    · exact absurd hatt (by decide)
    · have hfault : true = false := congrArg (fun r => r.1.fault) (Option.some.inj hexec)
      cases hfault

end Londa.Placement
