import Londa.Hex
import Londa.Machine

/-!
# Messages with a length header

A connection writes a message as a header of eight characters, the size of the serialized
data in hexadecimal, and the data. A read of a message is a chain of handlers: one read of
exactly eight bytes, then one of as many bytes as the header says, each made of whatever
pieces the socket delivers. The archive that turns a value into bytes and back is a
parameter.

`outbound_header_` and `outbound_data_` are members that the gather-write refers to until
its handler is called, so a write is only started when the one before it has completed; its
bytes are put on the wire in one step.
-/

namespace Londa

/-- `boost::archive::text_oarchive` and `text_iarchive`; `none` where the latter throws. -/
structure Archive (T : Type*) where
  encode : T → List UInt8
  decode : List UInt8 → Option T

/-- What is written can be read back, and something is always written. -/
structure Archive.Lawful {T : Type*} (A : Archive T) : Prop where
  decode_encode : ∀ t, A.decode (A.encode t) = some t
  encode_ne_nil : ∀ t, A.encode t ≠ []

namespace Connection

inductive Error (E : Type*)
  | invalidArgument
  | socket (e : E)
  deriving DecidableEq

/-- How a read ends: a call of the handler, an exception out of a handler, or the address of
the first byte of an empty vector. -/
inductive Outcome (T E : Type*)
  | ok (t : T)
  | error (e : Error E)
  | lengthError
  | undefined
  deriving DecidableEq

/-- The buffer of the read in progress with what it has got so far. -/
inductive Inbound
  | header (got : List UInt8)
  | data (size : ℕ) (got : List UInt8)
  deriving DecidableEq

def headerLength : ℕ := 8

/-- One more than the largest `size_t`. -/
def sizeBound : ℕ := 18446744073709551616

/-- `max_size()` of a vector of bytes. -/
def maxSize : ℕ := 9223372036854775807

/-- `std::setw(header_length) << std::hex << size`. -/
def formatHeader (size : ℕ) : List UInt8 := (Hex.digits size).leftpad headerLength 32

/-- How many bytes the read in progress still asks for. -/
def Inbound.room : Inbound → ℕ
  | header got => headerLength - got.length
  | data size got => size - got.length

section Functions

variable {T E : Type*} (A : Archive T)

/-- The bytes of the gather-write; without a result where the handler is called with
`invalid_argument`. -/
def asyncWrite (t : T) : Option (List UInt8) :=
  if (formatHeader (A.encode t).length).length ≠ headerLength then none
  else some (formatHeader (A.encode t).length ++ A.encode t)

def handleReadData (data : List UInt8) : Outcome T E :=
  if data = [] then .undefined
  else match A.decode data with
    | none => .error .invalidArgument
    | some t => .ok t

/-- The read of the data that is started, or how the read of the message ends. -/
def handleReadHeader (header : List UInt8) : Inbound ⊕ Outcome T E :=
  match Hex.extract sizeBound header with
  | none => .inr (.error .invalidArgument)
  | some size =>
      if maxSize < size then .inr .lengthError
      else if size = 0 then .inr (handleReadData A [])
      else .inl (.data size [])

/-- The socket has delivered a piece, not more than was asked for. -/
def receive (chunk : List UInt8) : Inbound → Inbound ⊕ Outcome T E
  | .header got =>
      if (got ++ chunk).length < headerLength then .inl (.header (got ++ chunk))
      else handleReadHeader A (got ++ chunk)
  | .data size got =>
      if (got ++ chunk).length < size then .inl (.data size (got ++ chunk))
      else .inr (handleReadData A (got ++ chunk))

/-- One direction of a connection whose reader starts the next read when it has got a
message. The bytes on the wire have been written and not yet received. -/
structure Link (T E : Type*) where
  sent : List T
  wire : List UInt8
  ended : Option E
  arrived : List UInt8
  inbound : Inbound
  received : List T
  stopped : Option (Outcome T E)

inductive Act (T E : Type*)
  | write (t : T)
  | inject (bytes : List UInt8)
  | fail (e : E) (kept : ℕ)
  | deliver (n : ℕ)
  | eof

def Link.open : Link T E := ⟨[], [], none, [], .header [], [], none⟩

/-- The reader after a piece of `n` bytes. -/
def deliver (s : Link T E) (n : ℕ) : Link T E :=
  let s' := { s with wire := s.wire.drop n, arrived := s.arrived ++ s.wire.take n }
  match receive (E := E) A (s.wire.take n) s.inbound with
  | .inl inbound => { s' with inbound := inbound }
  | .inr (.ok t) => { s' with received := s.received ++ [t], inbound := .header [] }
  | .inr o => { s' with stopped := some o }

/-- Other bytes than those of `async_write` come from a peer that is not a `connection`. When
the connection ends, only a part of what is on the wire may still arrive. -/
def step (s : Link T E) : Act T E → Option (Link T E)
  | .write t =>
      if s.ended.isSome then none
      else match asyncWrite A t with
        | none => some s
        | some bytes => some { s with sent := s.sent ++ [t], wire := s.wire ++ bytes }
  | .inject bytes =>
      if s.ended.isSome then none else some { s with wire := s.wire ++ bytes }
  | .fail e kept =>
      if s.ended.isSome then none else some { s with wire := s.wire.take kept, ended := some e }
  | .deliver n =>
      if s.stopped.isNone ∧ 0 < n ∧ n ≤ s.inbound.room ∧ n ≤ s.wire.length then
        some (deliver A s n)
      else none
  | .eof =>
      match s.ended with
      | none => none
      | some e =>
          if s.stopped.isNone ∧ s.wire = [] then
            some { s with stopped := some (.error (.socket e)) }
          else none

def machine : Machine (Link T E) (Act T E) := ⟨Link.open, step A⟩

/-- Both ends are connections. -/
def honest (_ : Link T E) : Act T E → Bool
  | .inject _ => false
  | _ => true

/-- What a sequence of messages looks like on the wire; those that `async_write` refuses leave
nothing there. -/
def frames (ts : List T) : List UInt8 := ts.flatMap fun t => (asyncWrite A t).getD []

/-- `bytes` are still to come for the messages `ts`. -/
def ToCome : Inbound → List UInt8 → List T → Prop
  | .header got, bytes, ts => got.length < headerLength ∧ got ++ bytes = frames A ts
  | .data size got, bytes, ts => ∃ t ts' data, ts = t :: ts' ∧ A.encode t = got ++ data ∧
      size = got.length + data.length ∧ data ≠ [] ∧ bytes = data ++ frames A ts'

/-- The bytes of a whole message: the size of the data as the header is read, and the data. -/
def IsFrame (bytes : List UInt8) (t : T) : Prop :=
  ∃ header data, bytes = header ++ data ∧ header.length = headerLength ∧ data ≠ [] ∧
    Hex.extract sizeBound header = some data.length ∧ data.length < 16 ^ 8 ∧
    A.decode data = some t

/-- The bytes are whole messages, one behind the other. -/
def AreFrames : List UInt8 → List T → Prop
  | bytes, [] => bytes = []
  | bytes, t :: ts => ∃ front back, bytes = front ++ back ∧ IsFrame A front t ∧ AreFrames back ts

/-- `part` is what the read in progress has taken of a message. -/
def Holds : Inbound → List UInt8 → Prop
  | .header got, part => part = got ∧ got.length < headerLength
  | .data size got, part => ∃ header, part = header ++ got ∧ header.length = headerLength ∧
      Hex.extract sizeBound header = some size ∧ got.length < size ∧ size < 16 ^ 8

/-- A read that has taken `part` ends in this way without a message. -/
def StopsWith (part : List UInt8) : Outcome T E → Prop
  | .ok _ => False
  | .error .invalidArgument =>
      (part.length = headerLength ∧ Hex.extract sizeBound part = none) ∨
        ∃ header data, part = header ++ data ∧ header.length = headerLength ∧ data ≠ [] ∧
          Hex.extract sizeBound header = some data.length ∧ A.decode data = none
  | .error (.socket _) => ∃ i, Holds i part
  | .lengthError => part.length = headerLength ∧
      ∃ v, 0 < v ∧ v < 16 ^ 7 ∧ Hex.extract sizeBound part = some (sizeBound - v)
  | .undefined => part.length = headerLength ∧ Hex.extract sizeBound part = some 0

variable {A} {s s' : Link T E} {a : Act T E} {t : T} {ts us : List T}
  {bytes got chunk rest : List UInt8} {size n : ℕ} {i : Inbound}

theorem length_formatHeader_iff :
    (formatHeader size).length = headerLength ↔ size < 16 ^ 8 := by
  unfold formatHeader headerLength
  rw [List.length_leftpad, ← Hex.length_digits_le_iff (k := 8) (by decide), max_eq_left_iff]

theorem extract_formatHeader (h : size < 16 ^ 8) :
    Hex.extract sizeBound (formatHeader size) = some size :=
  Hex.extract_digits _ (h.trans (by decide))

theorem asyncWrite_eq_some (h : asyncWrite A t = some bytes) :
    (A.encode t).length < 16 ^ 8 ∧ bytes = formatHeader (A.encode t).length ++ A.encode t := by
  unfold asyncWrite at h
  split_ifs at h with hlen
  exact ⟨length_formatHeader_iff.1 (not_not.1 hlen), (Option.some.inj h).symm⟩

theorem asyncWrite_isSome_iff : (asyncWrite A t).isSome ↔ (A.encode t).length < 16 ^ 8 := by
  unfold asyncWrite
  rw [← length_formatHeader_iff]
  split_ifs with hlen <;> simp_all

theorem frames_cons (h : asyncWrite A t = some bytes) :
    frames A (t :: ts) = bytes ++ frames A ts := by
  unfold frames
  rw [List.flatMap_cons, h, Option.getD_some]

theorem frames_append_singleton (h : asyncWrite A t = some bytes) :
    frames A (ts ++ [t]) = frames A ts ++ bytes := by
  unfold frames
  simp [h]

theorem frames_append (ts us : List T) : frames A (ts ++ us) = frames A ts ++ frames A us :=
  List.flatMap_append

theorem length_frames_le (h : ts <+: us) : (frames A ts).length ≤ (frames A us).length := by
  obtain ⟨vs, rfl⟩ := h
  rw [frames_append, List.length_append]
  exact Nat.le_add_right _ _

theorem ToCome.length_le (h : ToCome A i bytes ts) (hs : ∀ t ∈ ts, (asyncWrite A t).isSome) :
    bytes.length ≤ (frames A ts).length := by
  cases i with
  | header got =>
      rw [← h.2, List.length_append]
      exact Nat.le_add_left _ _
  | data size got =>
      obtain ⟨t, ts', data, rfl, hdata, -, -, rfl⟩ := h
      obtain ⟨frame, hframe⟩ := Option.isSome_iff_exists.1 (hs t List.mem_cons_self)
      rw [frames_cons hframe, (asyncWrite_eq_some hframe).2, hdata]
      simp only [List.length_append]
      omega

theorem ToCome.lt_length (h : ToCome A i bytes (t :: ts))
    (hs : ∀ u ∈ t :: ts, (asyncWrite A u).isSome) : (frames A ts).length < bytes.length := by
  cases i with
  | header got =>
      obtain ⟨frame, hframe⟩ := Option.isSome_iff_exists.1 (hs t List.mem_cons_self)
      obtain ⟨hlt, rfl⟩ := asyncWrite_eq_some hframe
      have hlen := congrArg List.length h.2
      rw [frames_cons hframe] at hlen
      simp only [List.length_append, length_formatHeader_iff.2 hlt] at hlen
      have hgot := h.1
      omega
  | data size got =>
      obtain ⟨_, _, data, hts, -, -, hne, rfl⟩ := h
      cases hts
      rw [List.length_append]
      exact Nat.lt_add_of_pos_left (List.length_pos_iff.2 hne)

theorem ToCome.append (h : ToCome A i rest ts) (hw : asyncWrite A t = some bytes) :
    ToCome A i (rest ++ bytes) (ts ++ [t]) := by
  cases i with
  | header got => exact ⟨h.1, by rw [frames_append_singleton hw, ← h.2, List.append_assoc]⟩
  | data size got =>
      obtain ⟨u, ts', data, rfl, hdata, hsize, hne, rfl⟩ := h
      refine ⟨u, ts' ++ [t], data, rfl, hdata, hsize, hne, ?_⟩
      rw [frames_append_singleton hw, List.append_assoc]

/-- A piece of what is to come either leaves the rest to come for the same messages or
completes the first of them. -/
theorem ToCome.receive (hA : A.Lawful) (h : ToCome A i (chunk ++ rest) ts)
    (hs : ∀ t ∈ ts, (asyncWrite A t).isSome) (hroom : chunk.length ≤ i.room) :
    (∃ i', receive (E := E) A chunk i = .inl i' ∧ ToCome A i' rest ts) ∨
      ∃ t ts', ts = t :: ts' ∧ receive (E := E) A chunk i = .inr (.ok t) ∧
        ToCome A (.header []) rest ts' := by
  cases i with
  | header got =>
      obtain ⟨hgot, hbytes⟩ := h
      rw [← List.append_assoc] at hbytes
      unfold Connection.receive
      dsimp only
      split_ifs with hlen
      · exact Or.inl ⟨_, rfl, hlen, hbytes⟩
      cases ts with
      | nil =>
          rw [List.append_eq_nil_iff.1 hbytes |>.1] at hlen
          exact absurd (by decide) hlen
      | cons t ts' =>
          obtain ⟨frame, hframe⟩ := Option.isSome_iff_exists.1 (hs t List.mem_cons_self)
          obtain ⟨hlt, rfl⟩ := asyncWrite_eq_some hframe
          rw [frames_cons hframe, List.append_assoc (formatHeader _)] at hbytes
          have hsize : (got ++ chunk).length = headerLength := by
            simp only [Inbound.room] at hroom
            rw [List.length_append] at hlen ⊢
            omega
          obtain ⟨hheader, hrest⟩ := List.append_inj hbytes
            (hsize.trans (length_formatHeader_iff.2 hlt).symm)
          have hpos := List.length_pos_iff.2 (hA.encode_ne_nil t)
          refine Or.inl ⟨.data (A.encode t).length [], ?_, t, ts', A.encode t, rfl, rfl, ?_,
            hA.encode_ne_nil t, hrest⟩
          · unfold handleReadHeader
            rw [hheader, extract_formatHeader hlt]
            dsimp only
            rw [if_neg (not_lt.2 (hlt.le.trans (by decide))), if_neg hpos.ne']
          · simp
  | data size got =>
      obtain ⟨t, ts', data, rfl, hdata, hsize, hne, hbytes⟩ := h
      obtain ⟨data', rfl, hrest⟩ :
          ∃ data', data = chunk ++ data' ∧ rest = data' ++ frames A ts' := by
        rcases List.append_eq_append_iff.1 hbytes with ⟨data', h₁, h₂⟩ | ⟨excess, h₁, h₂⟩
        · exact ⟨data', h₁, h₂⟩
        · have hexcess : excess = [] := by
            rw [← List.length_eq_zero_iff]
            simp only [Inbound.room, h₁, List.length_append] at hroom
            omega
          subst hexcess
          exact ⟨[], by simpa using h₁.symm, by simpa using h₂.symm⟩
      rw [List.length_append] at hsize
      unfold Connection.receive
      dsimp only
      split_ifs with hlen
      · refine Or.inl ⟨_, rfl, t, ts', data', rfl, by rw [hdata, List.append_assoc], ?_, ?_, hrest⟩
        · rw [List.length_append]
          omega
        · rintro rfl
          simp only [List.length_append, List.length_nil] at hlen hsize
          omega
      · have hdone : data' = [] := by
          rw [← List.length_eq_zero_iff]
          rw [List.length_append] at hlen
          omega
        subst hdone
        rw [List.append_nil] at hdata
        refine Or.inr ⟨t, ts', rfl, ?_, by decide, hrest⟩
        unfold handleReadData
        rw [← hdata, if_neg (hA.encode_ne_nil t), hA.decode_encode]

/-- What is still to come, on the wire or lost, completes the messages not yet received. -/
structure Inv (A : Archive T) (s : Link T E) : Prop where
  sendable : ∀ t ∈ s.sent, (asyncWrite A t).isSome
  toCome : ∃ ts rest, s.sent = s.received ++ ts ∧ ToCome A s.inbound (s.wire ++ rest) ts ∧
    s.arrived ++ (s.wire ++ rest) = frames A s.sent ∧ (s.ended = none → rest = [])
  stopped : ∀ o, s.stopped = some o → ∃ e, s.ended = some e ∧ o = .error (.socket e)

theorem Inv.deliver (hA : A.Lawful) (h : Inv A s) (hroom : n ≤ s.inbound.room) :
    Inv A (deliver A s n) := by
  obtain ⟨ts, rest, hsent, htc, harr, hend⟩ := h.toCome
  have hsplit : s.wire ++ rest = s.wire.take n ++ (s.wire.drop n ++ rest) := by
    rw [← List.append_assoc, List.take_append_drop]
  rw [hsplit] at htc harr
  rw [← List.append_assoc] at harr
  have hs : ∀ t ∈ ts, (asyncWrite A t).isSome := fun t ht =>
    h.sendable t (hsent ▸ List.mem_append_right _ ht)
  have hlen : (s.wire.take n).length ≤ s.inbound.room := (List.length_take_le _ _).trans hroom
  unfold Connection.deliver
  rcases htc.receive hA hs hlen with ⟨i', hi, htc'⟩ | ⟨t, ts', rfl, hi, htc'⟩
  · rw [hi]
    exact ⟨h.sendable, ⟨ts, rest, hsent, htc', harr, hend⟩, h.stopped⟩
  · rw [hi]
    refine ⟨h.sendable, ⟨ts', rest, ?_, htc', harr, hend⟩, h.stopped⟩
    rw [hsent, List.append_assoc]
    rfl

theorem Inv.step (hA : A.Lawful) (h : Inv A s) (ha : honest s a) (hst : step A s a = some s') :
    Inv A s' := by
  obtain ⟨ts, rest, hsent, htc, harr, hend⟩ := h.toCome
  cases a with
  | inject bytes => cases ha
  | write t =>
      simp only [Connection.step] at hst
      split_ifs at hst with hup
      have hrest := hend (by simpa using hup)
      subst hrest
      rw [List.append_nil] at htc harr
      cases hw : asyncWrite A t with
      | none =>
          rw [hw] at hst
          cases Option.some.inj hst
          exact h
      | some bytes =>
          rw [hw] at hst
          cases Option.some.inj hst
          refine ⟨?_, ⟨ts ++ [t], [], ?_, ?_, ?_, fun _ => rfl⟩, h.stopped⟩
          · intro u hu
            rcases List.mem_append.1 hu with hu | hu
            · exact h.sendable u hu
            · rw [List.mem_singleton.1 hu, hw]
              rfl
          · rw [hsent, List.append_assoc]
          · rw [List.append_nil]
            exact htc.append hw
          · rw [List.append_nil, frames_append_singleton hw, ← harr, List.append_assoc]
  | fail e kept =>
      simp only [Connection.step] at hst
      split_ifs at hst with hup
      cases Option.some.inj hst
      have hsplit : s.wire ++ rest = s.wire.take kept ++ (s.wire.drop kept ++ rest) := by
        rw [← List.append_assoc, List.take_append_drop]
      rw [hsplit] at htc harr
      refine ⟨h.sendable, ⟨ts, s.wire.drop kept ++ rest, hsent, htc, harr, nofun⟩, ?_⟩
      intro o ho
      obtain ⟨e', he', -⟩ := h.stopped o ho
      rw [he'] at hup
      exact absurd rfl hup
  | deliver n =>
      simp only [Connection.step] at hst
      split_ifs at hst with hen
      cases Option.some.inj hst
      exact h.deliver hA hen.2.2.1
  | eof =>
      simp only [Connection.step] at hst
      split at hst
      · cases hst
      · rename_i e he
        split_ifs at hst
        cases Option.some.inj hst
        refine ⟨h.sendable, ⟨ts, rest, hsent, htc, harr, hend⟩, ?_⟩
        rintro o ho
        cases Option.some.inj ho
        exact ⟨e, he, rfl⟩

theorem inv_of_reachable (hA : A.Lawful)
    (h : (machine (E := E) A).ReachableBy (fun s a => honest s a) s) : Inv A s := by
  refine h.invariant ⟨nofun, ⟨[], [], rfl, ⟨by decide, rfl⟩, rfl, fun _ => rfl⟩, nofun⟩ ?_
  exact fun _ hi ha hst => hi.step hA ha hst

/-- Between two connections a message is received exactly when all the bytes of it and of the
messages before it have arrived, whatever pieces they arrive in, and a read fails only with
the error that ended the connection. -/
theorem received_iff_arrived (hA : A.Lawful)
    (h : (machine (E := E) A).ReachableBy (fun s a => honest s a) s) :
    s.received <+: s.sent ∧ s.arrived <+: frames A s.sent ∧
      (∀ n ≤ s.sent.length, n ≤ s.received.length ↔
        (frames A (s.sent.take n)).length ≤ s.arrived.length) ∧
      ∀ o, s.stopped = some o → ∃ e, s.ended = some e ∧ o = .error (.socket e) := by
  have hinv := inv_of_reachable hA h
  obtain ⟨ts, rest, hsent, htc, harr, -⟩ := hinv.toCome
  have hs : ∀ t ∈ ts, (asyncWrite A t).isSome := fun t ht =>
    hinv.sendable t (hsent ▸ List.mem_append_right _ ht)
  have hlen := congrArg List.length harr
  simp only [hsent, frames_append, List.length_append] at hlen
  refine ⟨⟨ts, hsent.symm⟩, ⟨_, harr⟩, fun n hn => ?_, hinv.stopped⟩
  constructor
  · intro hle
    have hpre : s.sent.take n <+: s.received := by
      rw [hsent, List.take_append_of_le_length hle]
      exact List.take_prefix n _
    have hmono := length_frames_le (A := A) hpre
    have hbound := htc.length_le hs
    rw [List.length_append] at hbound
    omega
  · intro hle
    by_contra hgt
    rw [not_le] at hgt
    cases ts with
    | nil =>
        rw [hsent, List.append_nil] at hn
        omega
    | cons t ts' =>
        have hpre : s.received ++ [t] <+: s.sent.take n := by
          rw [hsent, List.take_append, List.take_of_length_le hgt.le]
          obtain ⟨k, hk⟩ := Nat.exists_eq_add_one.2 (Nat.sub_pos_of_lt hgt)
          rw [hk, List.take_succ_cons]
          exact ⟨ts'.take k, by rw [List.append_assoc]; rfl⟩
        have hmono := length_frames_le (A := A) hpre
        have hbound := htc.lt_length hs
        have hsingle : frames A (t :: ts') = frames A [t] ++ frames A ts' := frames_append [t] ts'
        rw [frames_append, List.length_append] at hmono
        rw [hsingle, List.length_append] at hlen
        rw [List.length_append] at hbound
        omega

/-- The text that an archive begins with: its signature behind the length of it, and the version
of the library. -/
def preamble : List UInt8 :=
  "22 serialization::archive 19 ".toList.map (fun c => UInt8.ofNat c.toNat)

def decimal (n : ℕ) : List UInt8 :=
  if n = 0 then [48] else ((Nat.digits 10 n).map (fun d => UInt8.ofNat (48 + d))).reverse

/-- The text archive of a `std::string`: its length, a space and its characters. Another text is
refused. -/
def textArchive : Archive (List UInt8) where
  encode t := preamble ++ (decimal t.length ++ 32 :: t)
  decode bytes :=
    let t := ((bytes.drop preamble.length).dropWhile (· != 32)).tail
    if bytes = preamble ++ (decimal t.length ++ 32 :: t) then some t else none

theorem decimal_ne_space (n : ℕ) : ∀ c ∈ decimal n, (c != 32) = true := by
  intro c hc
  unfold decimal at hc
  split_ifs at hc with hn
  · cases List.mem_singleton.1 hc
    rfl
  · obtain ⟨d, hd, rfl⟩ := List.mem_map.1 (List.mem_reverse.1 hc)
    have hlt := Nat.digits_lt_base (by decide : 1 < 10) hd
    interval_cases d <;> rfl

theorem textArchive_lawful : textArchive.Lawful where
  decode_encode t := by
    have hstring : ((textArchive.encode t).drop preamble.length).dropWhile (· != 32) =
        32 :: t := by
      simp only [textArchive]
      rw [List.drop_left, List.dropWhile_append_of_pos (decimal_ne_space t.length)]
      rfl
    change (if _ then some _ else none) = some t
    rw [hstring]
    exact if_pos rfl
  encode_ne_nil _ := by simp [textArchive]

/-- Two messages, `"hi"` in three pieces, and the empty string of which only the header comes. -/
def twoMessages : List (Act (List UInt8) ℕ) :=
  [.write [104, 105], .deliver 3, .deliver 5, .deliver 2, .deliver 31, .write [], .deliver 8,
    .fail 104 0, .eof]

theorem received_iff_arrived_twoMessages : ∃ s : Link (List UInt8) ℕ,
    s.sent = [[104, 105], []] ∧ s.received = [[104, 105]] ∧ s.arrived.length = 49 ∧
      s.stopped = some (.error (.socket 104)) ∧ ∀ n ≤ s.sent.length, n ≤ s.received.length ↔
        (frames textArchive (s.sent.take n)).length ≤ s.arrived.length := by
  have hrun : ((machine textArchive).checkedFrom honest (machine textArchive).init
      twoMessages).map (fun s => ((s.sent, s.received), s.arrived.length, s.stopped)) =
        some (([[104, 105], []], [[104, 105]]), 49, some (.error (.socket 104))) := by
    decide +kernel
  obtain ⟨s, hs, hview⟩ := Machine.reachableBy_of_checked hrun
  simp only [Prod.mk.injEq] at hview
  obtain ⟨⟨hsent, hrec⟩, harr, hstop⟩ := hview
  exact ⟨s, hsent, hrec, harr, hstop, (received_iff_arrived textArchive_lawful hs).2.2.1⟩

theorem AreFrames.append_singleton (h : AreFrames A got ts) (ht : IsFrame A bytes t) :
    AreFrames A (got ++ bytes) (ts ++ [t]) := by
  induction ts generalizing got with
  | nil =>
      cases h
      exact ⟨bytes, [], by simp, ht, rfl⟩
  | cons u ts ih =>
      obtain ⟨front, back, rfl, hu, hback⟩ := h
      exact ⟨front, back ++ bytes, List.append_assoc _ _ _, hu, ih hback⟩

/-- The size that a header gives is below `16 ^ 8`, or so large that the vector cannot have
it. -/
theorem size_cases {header : List UInt8} (hlen : header.length = headerLength)
    (h : Hex.extract sizeBound header = some size) :
    size < 16 ^ 8 ∨ (maxSize < size ∧
      ∃ v, 0 < v ∧ v < 16 ^ 7 ∧ Hex.extract sizeBound header = some (sizeBound - v)) := by
  rcases Hex.extract_cases h with hsmall | ⟨v, hpos, hv, -, rfl⟩
  · rw [hlen] at hsmall
    exact Or.inl hsmall
  · rw [hlen] at hv
    refine Or.inr ⟨?_, v, hpos, hv, h⟩
    simp only [headerLength, maxSize, sizeBound] at hv ⊢
    omega

theorem receive_cases (h : Holds i got) (hroom : chunk.length ≤ i.room) :
    (∃ i', receive (E := E) A chunk i = .inl i' ∧ Holds i' (got ++ chunk)) ∨
      (∃ t, receive (E := E) A chunk i = .inr (.ok t) ∧ IsFrame A (got ++ chunk) t) ∨
      ∃ o, receive (E := E) A chunk i = .inr o ∧ (∀ e, o ≠ .error (.socket e)) ∧
        StopsWith A (got ++ chunk) o := by
  cases i with
  | header front =>
      obtain ⟨rfl, hgot⟩ := h
      unfold receive
      dsimp only
      split_ifs with hlen
      · exact Or.inl ⟨_, rfl, rfl, hlen⟩
      have hsize : (got ++ chunk).length = headerLength := by
        simp only [Inbound.room] at hroom
        rw [List.length_append] at hlen ⊢
        omega
      unfold handleReadHeader
      split
      · rename_i hnone
        exact Or.inr (Or.inr ⟨_, rfl, nofun, Or.inl ⟨hsize, hnone⟩⟩)
      · rename_i size hsome
        rcases size_cases hsize hsome with hsmall | ⟨hlarge, hv⟩
        · rw [if_neg (not_lt.2 (hsmall.le.trans (by decide)))]
          split_ifs with hzero
          · subst hzero
            exact Or.inr (Or.inr ⟨.undefined, rfl, nofun, hsize, hsome⟩)
          · refine Or.inl ⟨_, rfl, got ++ chunk, (List.append_nil _).symm, hsize, hsome, ?_, hsmall⟩
            exact Nat.pos_of_ne_zero hzero
        · rw [if_pos hlarge]
          exact Or.inr (Or.inr ⟨.lengthError, rfl, nofun, hsize, hv⟩)
  | data size front =>
      obtain ⟨header, rfl, hheader, hextract, hlt, hsmall⟩ := h
      unfold receive
      dsimp only
      split_ifs with hlen
      · exact Or.inl ⟨_, rfl, header, List.append_assoc _ _ _, hheader, hextract, hlen, hsmall⟩
      have hsize : (front ++ chunk).length = size := by
        simp only [Inbound.room] at hroom
        rw [List.length_append] at hlen ⊢
        omega
      subst hsize
      have hne : front ++ chunk ≠ [] := List.length_pos_iff.1 (Nat.zero_lt_of_lt hlt)
      unfold handleReadData
      rw [if_neg hne, List.append_assoc]
      split
      · rename_i hnone
        refine Or.inr (Or.inr ⟨_, rfl, nofun, Or.inr ?_⟩)
        exact ⟨header, _, rfl, hheader, hne, hextract, hnone⟩
      · rename_i t hsome
        exact Or.inr (Or.inl ⟨t, rfl, header, _, rfl, hheader, hne, hextract, hsmall, hsome⟩)

/-- The bytes that arrived are the messages received and what the last read has taken. -/
structure Parsed (A : Archive T) (s : Link T E) : Prop where
  split : ∃ front part, s.arrived = front ++ part ∧ AreFrames A front s.received ∧
    (s.stopped = none → Holds s.inbound part) ∧ ∀ o, s.stopped = some o → StopsWith A part o

theorem Parsed.step (h : Parsed A s) (hst : step A s a = some s') : Parsed A s' := by
  obtain ⟨front, part, harr, hframes, hholds, hstop⟩ := h.split
  cases a with
  | write t =>
      simp only [Connection.step] at hst
      split_ifs at hst
      split at hst
      · cases Option.some.inj hst
        exact h
      · cases Option.some.inj hst
        exact ⟨front, part, harr, hframes, hholds, hstop⟩
  | inject bytes | fail e kept =>
      simp only [Connection.step] at hst
      split_ifs at hst
      cases Option.some.inj hst
      exact ⟨front, part, harr, hframes, hholds, hstop⟩
  | deliver n =>
      simp only [Connection.step] at hst
      split_ifs at hst with hen
      cases Option.some.inj hst
      obtain ⟨hnone, -, hroom, -⟩ := hen
      have hnone : s.stopped = none := by simpa using hnone
      have hlen : (s.wire.take n).length ≤ s.inbound.room := (List.length_take_le _ _).trans hroom
      unfold Connection.deliver
      rcases receive_cases (A := A) (E := E) (hholds hnone) hlen with
        ⟨i', hi, hi'⟩ | ⟨t, hi, ht⟩ | ⟨o, hi, -, ho⟩
      · rw [hi]
        refine ⟨front, part ++ s.wire.take n, ?_, hframes, fun _ => hi', fun o ho => ?_⟩
        · rw [harr, List.append_assoc]
        · cases hnone.symm.trans ho
      · rw [hi]
        refine ⟨front ++ (part ++ s.wire.take n), [], ?_, hframes.append_singleton ht,
          fun _ => ⟨rfl, by decide⟩, fun o ho => ?_⟩
        · rw [harr, List.append_assoc, List.append_nil]
        · cases hnone.symm.trans ho
      · rw [hi]
        cases o with
        | ok t => exact ho.elim
        | error | lengthError | undefined =>
            refine ⟨front, part ++ s.wire.take n, ?_, hframes, nofun, ?_⟩
            · rw [harr, List.append_assoc]
            · intro o' ho'
              cases Option.some.inj ho'
              exact ho
  | eof =>
      simp only [Connection.step] at hst
      split at hst
      · cases hst
      · split_ifs at hst with hen
        cases Option.some.inj hst
        refine ⟨front, part, harr, hframes, nofun, ?_⟩
        intro o ho
        cases Option.some.inj ho
        exact ⟨_, hholds (by simpa using hen.1)⟩

/-- Whatever the peer writes, the messages received are those whose frames have arrived, a
frame being a header that gives the length of the data behind it, less than `16 ^ 8` and not
zero, and data that the archive accepts; the read in progress never asks for more, and a read
that ends without a message ends as its bytes require. -/
theorem received_parsed (h : (machine (E := E) A).Reachable s) :
    ∃ front part, s.arrived = front ++ part ∧ AreFrames A front s.received ∧
      (s.stopped = none → Holds s.inbound part) ∧ ∀ o, s.stopped = some o → StopsWith A part o := by
  have hinv : Parsed A s := by
    apply h.invariant (I := Parsed A)
    · exact ⟨[], [], rfl, rfl, fun _ => ⟨rfl, by decide⟩, nofun⟩
    · exact fun _ hi hst => hi.step hst
  exact hinv.split

/-- The message `"hi"` under a header `+0X21`, then the header of a negative size. -/
def signedHeaders : List (Act (List UInt8) ℕ) :=
  [.inject [43, 48, 88, 50, 49, 32, 32, 32], .inject (textArchive.encode [104, 105]),
    .inject [32, 32, 32, 32, 32, 32, 45, 49], .deliver 8, .deliver 33, .deliver 8]

theorem received_parsed_signedHeaders : ∃ s : Link (List UInt8) ℕ,
    s.received = [[104, 105]] ∧ s.stopped = some .lengthError ∧
      ∃ front part, s.arrived = front ++ part ∧ AreFrames textArchive front s.received ∧
        StopsWith (E := ℕ) textArchive part .lengthError := by
  have hrun : ((machine textArchive).run signedHeaders).map (fun s => (s.received, s.stopped)) =
      some ([[104, 105]], some .lengthError) := by decide +kernel
  obtain ⟨s, -, hs, hview⟩ := Machine.reachable_of_run_map hrun
  obtain ⟨hrec, hstop⟩ := Prod.mk.inj hview
  obtain ⟨front, part, harr, hframes, -, ho⟩ := received_parsed hs
  exact ⟨s, hrec, hstop, front, part, harr, hframes, ho _ hstop⟩

end Functions

end Connection
end Londa
