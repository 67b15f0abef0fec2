import Londa.MyFuture

/-!
# The reference count and the deletion of the shared object

`Sound` holds in every run: pointers are valid, the source of an unfinished copy
or move keeps its pointer, and `count_` is the number of counted handles modulo
2³². As long as no object has 2³¹ counted handles the count is that number, and
`Owned` accounts for the deletion: none while a handle is counted, and exactly
one, made or about to be made, as soon as none is.
-/

namespace Londa.MyFuture

def Handle.pointer : Handle → Option ℕ
  | .copying p _ => some p
  | .moving p _ => p
  | .live p => p
  | .releasing p => some p
  | .deleting p => some p
  | .dead => none

structure Sound (s : State) : Prop where
  valid : ∀ (h : ℕ) (x : Handle) (p : ℕ), s.handles[h]? = some x → x.pointer = some p →
    p < s.inners.length
  copying : ∀ h p src : ℕ, s.handles[h]? = some (.copying p src) →
    s.handles[src]? = some (.live (some p))
  moving : ∀ (h src : ℕ) (p : Option ℕ), s.handles[h]? = some (.moving p src) →
    s.handles[src]? = some (.live p)
  exclusive : ∀ (h j src : ℕ) (p : Option ℕ) (x : Handle), s.handles[h]? = some (.moving p src) →
    s.handles[j]? = some x → x.source = some src → j = h
  balance : ∀ (p : ℕ) (x : Inner), s.inners[p]? = some x → x.count = BitVec.ofNat 32 (s.uses p)

theorem Handle.counted_pointer {p : ℕ} {x : Handle} (h : x.counted p = true) :
    x.pointer = some p := by
  cases x with
  | live q => cases q <;> simp_all [counted, pointer]
  | releasing q => simp_all [counted, pointer]
  | _ => cases h

theorem Handle.deletes_pointer {p : ℕ} {x : Handle} (h : x.deletes p = true) :
    x.pointer = some p := by
  cases x with
  | deleting q => simp_all [deletes, pointer]
  | _ => cases h

namespace Sound

variable {s : State}

theorem uses_fresh (h : Sound s) : s.uses s.inners.length = 0 := by
  refine List.countP_eq_zero.2 (fun x hx hc => ?_)
  obtain ⟨i, hi⟩ := List.mem_iff_getElem?.1 hx
  exact Nat.lt_irrefl _ (h.valid i x _ hi (Handle.counted_pointer hc))

theorem deleters_fresh (h : Sound s) : s.deleters s.inners.length = 0 := by
  refine List.countP_eq_zero.2 (fun x hx hc => ?_)
  obtain ⟨i, hi⟩ := List.mem_iff_getElem?.1 hx
  exact Nat.lt_irrefl _ (h.valid i x _ hi (Handle.deletes_pointer hc))

/-- An idle handle is not the source of an unfinished construction. -/
theorem source_ne {i j : ℕ} {x : Handle} (hb : s.busy i = false) (hj : s.handles[j]? = some x) :
    x.source ≠ some i := by
  intro hx
  have ht : s.busy i = true := List.any_eq_true.2 ⟨x, List.mem_of_getElem? hj, by simp [hx]⟩
  rw [hb] at ht
  cases ht

end Sound

/-- The handles after a step, entry by entry: the new last entry, the entries the
step replaces, and the rest. -/
theorem getElem?_append_singleton {α : Type*} {l : List α} {i : ℕ} {x y : α}
    (h : (l ++ [y])[i]? = some x) : l[i]? = some x ∨ (i = l.length ∧ x = y) := by
  rw [List.getElem?_append] at h
  split_ifs at h with hi
  · exact Or.inl h
  · have hz : i - l.length = 0 := by
      by_contra hne
      rw [List.getElem?_eq_none (by simp; omega)] at h
      cases h
    rw [hz] at h
    exact Or.inr ⟨by omega, by simpa using h.symm⟩

theorem getElem?_set_cases {α : Type*} {l : List α} {i j : ℕ} {x y : α}
    (h : (l.set i y)[j]? = some x) : (j = i ∧ x = y) ∨ (j ≠ i ∧ l[j]? = some x) := by
  by_cases hj : j = i
  · subst j
    rw [List.getElem?_set_self'] at h
    cases hl : l[i]? with
    | none => simp [hl] at h
    | some z => exact Or.inl ⟨rfl, by simpa [hl] using h.symm⟩
  · exact Or.inr ⟨hj, by rwa [List.getElem?_set_ne (Ne.symm hj)] at h⟩

theorem uses_set {s : State} {i : ℕ} {x y : Handle} (is : List Inner) (h : s.handles[i]? = some x)
    (p : ℕ) : State.uses ⟨is, s.handles.set i y⟩ p + (if x.counted p then 1 else 0) =
      s.uses p + (if y.counted p then 1 else 0) := countP_set_add h

theorem deleters_set {s : State} {i : ℕ} {x y : Handle} (is : List Inner)
    (h : s.handles[i]? = some x) (p : ℕ) :
    State.deleters ⟨is, s.handles.set i y⟩ p + (if x.deletes p then 1 else 0) =
      s.deleters p + (if y.deletes p then 1 else 0) := countP_set_add h

theorem inners_length {s t : State} {a : Act} (ht : Trans s a t) :
    s.inners.length ≤ t.inners.length := by
  cases ht <;> simp

namespace Sound

variable {s t : State} {a : Act}

theorem not_moving {j src : ℕ} {p : Option ℕ} (hm : s.handles.any (Handle.movesFrom src) = false) :
    s.handles[j]? ≠ some (.moving p src) := by
  intro hj
  have ht : s.handles.any (Handle.movesFrom src) = true :=
    List.any_eq_true.2 ⟨_, List.mem_of_getElem? hj, by simp [Handle.movesFrom]⟩
  rw [hm] at ht
  cases ht

theorem step_valid (ht : Trans s a t) (h : Sound s) (i : ℕ) (x : Handle) (p : ℕ)
    (hi : t.handles[i]? = some x) (hp : x.pointer = some p) : p < t.inners.length := by
  have hv := h.valid
  have hlen := inners_length ht
  cases ht with
  | construct | copyFrom src q hh hm | moveFrom src q hh hb =>
      rcases getElem?_append_singleton hi with hold | ⟨_, rfl⟩ <;> grind [Handle.pointer]
  | increase j q src hh | skip j hh hb | release j q hh hb | decrease j q hh hn | last j q hh hz
  | delete j q hh =>
      rcases getElem?_set_cases hi with ⟨rfl, rfl⟩ | ⟨_, hold⟩ <;> grind [Handle.pointer]
  | clear j q src hh =>
      rcases getElem?_set_cases hi with ⟨rfl, rfl⟩ | ⟨_, hmid⟩
      · exact hv i _ p hh hp
      · rcases getElem?_set_cases hmid with ⟨rfl, rfl⟩ | ⟨_, hold⟩
        · cases hp
        · exact hv i x p hold hp

/-- The source of an unfinished construction outlives what becomes of an idle handle. -/
theorem source_kept {i j src : ℕ} {x y : Handle} (hb : s.busy j = false)
    (hi : s.handles[i]? = some x) (hx : x.source = some src) :
    (s.handles.set j y)[src]? = s.handles[src]? := by
  apply List.getElem?_set_ne
  rintro rfl
  exact source_ne hb hi hx

/-- The end of a move takes nothing from another construction. -/
theorem source_kept_clear (h : Sound s) {i j src src' : ℕ} {x : Handle} {p q : Option ℕ}
    (hh : s.handles[j]? = some (.moving q src')) (hi : s.handles[i]? = some x)
    (hx : x.source = some src) (hij : i ≠ j) (hsrc : s.handles[src]? = some (.live p)) :
    ((s.handles.set src' (.live none)).set j (.live q))[src]? = some (.live p) := by
  have hj : src ≠ j := by
    rintro rfl
    rw [hh] at hsrc
    cases hsrc
  have hsrc' : src ≠ src' := by
    rintro rfl
    exact hij (h.exclusive j i src q _ hh hi hx)
  rw [List.getElem?_set_ne (Ne.symm hj), List.getElem?_set_ne (Ne.symm hsrc'), hsrc]

theorem step_copying (ht : Trans s a t) (h : Sound s) (i p src : ℕ)
    (hi : t.handles[i]? = some (.copying p src)) : t.handles[src]? = some (.live (some p)) := by
  have hcop := h.copying
  cases ht with
  | construct | copyFrom src' q hh hm | increase j q src' hh | moveFrom src' q hh hb
  | decrease j q hh hn | last j q hh hz | delete j q hh => grind
  | skip j hh hb | release j q hh hb =>
      have hold : s.handles[i]? = some (.copying p src) := by grind
      rw [source_kept hb hold rfl, hcop i p src hold]
  | clear j q src' hh =>
      have hold : s.handles[i]? = some (.copying p src) := by grind
      have hij : i ≠ j := by
        rintro rfl
        rw [hh] at hold
        cases hold
      exact h.source_kept_clear hh hold rfl hij (hcop i p src hold)

theorem step_moving (ht : Trans s a t) (h : Sound s) (i src : ℕ) (p : Option ℕ)
    (hi : t.handles[i]? = some (.moving p src)) : t.handles[src]? = some (.live p) := by
  have hmov := h.moving
  cases ht with
  | construct | copyFrom src' q hh hm | increase j q src' hh | moveFrom src' q hh hb
  | decrease j q hh hn | last j q hh hz | delete j q hh => grind
  | skip j hh hb | release j q hh hb =>
      have hold : s.handles[i]? = some (.moving p src) := by grind
      rw [source_kept hb hold rfl, hmov i src p hold]
  | clear j q src' hh =>
      rcases getElem?_set_cases hi with ⟨_, hx⟩ | ⟨hij, hmid⟩
      · cases hx
      · rcases getElem?_set_cases hmid with ⟨_, hx⟩ | ⟨_, hold⟩
        · cases hx
        · exact h.source_kept_clear hh hold rfl hij (hmov i src p hold)

theorem step_exclusive (ht : Trans s a t) (h : Sound s) (i j src : ℕ) (p : Option ℕ) (x : Handle)
    (hi : t.handles[i]? = some (.moving p src)) (hj : t.handles[j]? = some x)
    (hx : x.source = some src) : j = i := by
  have hexc := h.exclusive
  cases ht with
  | construct => grind [Handle.source]
  | copyFrom src' q hh hm =>
      have hold : s.handles[i]? = some (.moving p src) := by grind
      have hne : src' ≠ src := by
        rintro rfl
        exact not_moving hm hold
      grind [Handle.source]
  | moveFrom src' q hh hb => grind [Handle.source, Sound.source_ne]
  | increase l q src' hh | skip l hh hb | release l q hh hb | decrease l q hh hn | last l q hh hz
  | delete l q hh | clear l q src' hh =>
      have holdi : s.handles[i]? = some (.moving p src) := by grind
      have holdj : s.handles[j]? = some x := by grind [Handle.source]
      exact hexc i j src p x holdi holdj hx

end Sound

theorem getElem?_modify_eq {α : Type*} {l : List α} {f : α → α} {q p : ℕ} {y : α}
    (h : (l.modify q f)[p]? = some y) : ∃ x, l[p]? = some x ∧ y = if q = p then f x else x := by
  rw [List.getElem?_modify] at h
  obtain ⟨x, hx, hy⟩ := Option.map_eq_some_iff.1 h
  exact ⟨x, hx, hy.symm⟩

/-- What a step does to one inner object, together with the handles that count
for it and the destructors about to delete it. -/
inductive Effect (s : State) (a : Act) (t : State) (p : ℕ) : Inner → Prop
  | fresh (hp : p = s.inners.length) (hu : t.uses p = 1) (hd : t.deleters p = 0) :
      Effect s a t p ⟨1, 0⟩
  | same (x : Inner) (hx : s.inners[p]? = some x) (hu : t.uses p = s.uses p)
      (hd : t.deleters p = s.deleters p) : Effect s a t p x
  | increase (x : Inner) (j src : ℕ) (ha : a = .increase j)
      (hj : s.handles[j]? = some (.copying p src)) (hx : s.inners[p]? = some x)
      (hpos : 0 < s.uses p) (hu : t.uses p = s.uses p + 1) (hd : t.deleters p = s.deleters p) :
      Effect s a t p x.increase
  | decrease (x : Inner) (hx : s.inners[p]? = some x) (hn : x.decrease.count ≠ 0)
      (hu : t.uses p + 1 = s.uses p) (hd : t.deleters p = s.deleters p) : Effect s a t p x.decrease
  | last (x : Inner) (hx : s.inners[p]? = some x) (hz : x.decrease.count = 0)
      (hu : t.uses p + 1 = s.uses p) (hd : t.deleters p = s.deleters p + 1) :
      Effect s a t p x.decrease
  | delete (x : Inner) (hx : s.inners[p]? = some x) (hu : t.uses p = s.uses p)
      (hd : t.deleters p + 1 = s.deleters p) : Effect s a t p x.delete

section Effect

variable {s t : State} {a : Act}

theorem uses_append (s : State) (is : List Inner) (x : Handle) (p : ℕ) :
    State.uses ⟨is, s.handles ++ [x]⟩ p = s.uses p + (if x.counted p then 1 else 0) := by
  simp [State.uses]

theorem deleters_append (s : State) (is : List Inner) (x : Handle) (p : ℕ) :
    State.deleters ⟨is, s.handles ++ [x]⟩ p = s.deleters p + (if x.deletes p then 1 else 0) := by
  simp [State.deleters]

/-- Completing a move hands the counted reference over. -/
theorem clear_counts (h : Sound s) {j src : ℕ} {q : Option ℕ}
    (hh : s.handles[j]? = some (.moving q src)) (p : ℕ) :
    State.uses ⟨s.inners, (s.handles.set src (.live none)).set j (.live q)⟩ p = s.uses p ∧
      State.deleters ⟨s.inners, (s.handles.set src (.live none)).set j (.live q)⟩ p =
        s.deleters p := by
  have hsrc := h.moving j src q hh
  have hne : src ≠ j := by
    rintro rfl
    rw [hh] at hsrc
    cases hsrc
  have hmid : (s.handles.set src (.live none))[j]? = some (.moving q src) := by
    rw [List.getElem?_set_ne hne, hh]
  have hu₁ := uses_set (y := .live none) s.inners hsrc p
  have hu₂ := uses_set (s := ⟨s.inners, s.handles.set src (.live none)⟩) (y := .live q)
    s.inners hmid p
  have hd₁ := deleters_set (y := .live none) s.inners hsrc p
  have hd₂ := deleters_set (s := ⟨s.inners, s.handles.set src (.live none)⟩) (y := .live q)
    s.inners hmid p
  simp only [Handle.counted, Handle.deletes] at hu₁ hu₂ hd₁ hd₂
  constructor <;> simp_all

theorem effect_of_trans (ht : Trans s a t) (h : Sound s) {p : ℕ} {y : Inner}
    (hy : t.inners[p]? = some y) : Effect s a t p y := by
  cases ht with
  | construct =>
      have hu := uses_append s (s.inners ++ [⟨1, 0⟩]) (.live (some s.inners.length)) p
      have hd := deleters_append s (s.inners ++ [⟨1, 0⟩]) (.live (some s.inners.length)) p
      rcases getElem?_append_singleton hy with hx | ⟨rfl, rfl⟩
      · have hlt : p < s.inners.length := (List.getElem?_eq_some_iff.1 hx).1
        have hne : s.inners.length ≠ p := by omega
        exact .same y hx (by simpa [Handle.counted, hne] using hu)
          (by simpa [Handle.deletes] using hd)
      · exact .fresh rfl (by simpa [Handle.counted, h.uses_fresh] using hu)
          (by simpa [Handle.deletes, h.deleters_fresh] using hd)
  | copyFrom src q hh hm =>
      exact .same y hy (by simp [uses_append, Handle.counted])
        (by simp [deleters_append, Handle.deletes])
  | moveFrom src q hh hb =>
      exact .same y hy (by simp [uses_append, Handle.counted])
        (by simp [deleters_append, Handle.deletes])
  | clear j q src hh =>
      obtain ⟨hu, hd⟩ := clear_counts h hh p
      exact .same y hy hu hd
  | skip j hh hb =>
      have hu := uses_set (y := .dead) s.inners hh p
      have hd := deleters_set (y := .dead) s.inners hh p
      exact .same y hy (by simpa [Handle.counted] using hu) (by simpa [Handle.deletes] using hd)
  | release j q hh hb =>
      have hu := uses_set (y := .releasing q) s.inners hh p
      have hd := deleters_set (y := .releasing q) s.inners hh p
      exact .same y hy (by simpa [Handle.counted] using hu) (by simpa [Handle.deletes] using hd)
  | increase j q src hh =>
      have hu := uses_set (y := .live (some q)) (s.inners.modify q Inner.increase) hh p
      have hd := deleters_set (y := .live (some q)) (s.inners.modify q Inner.increase) hh p
      simp only [Handle.counted, Handle.deletes, Bool.false_eq_true, if_false,
        Nat.add_zero] at hu hd
      obtain ⟨x, hx, rfl⟩ := getElem?_modify_eq hy
      by_cases hqp : q = p
      · subst q
        rw [if_pos rfl]
        have hpos : 0 < s.uses p :=
          countP_pos_of_getElem? (h.copying j p src hh) (by simp [Handle.counted])
        exact .increase x j src rfl hh hx hpos (by simpa using hu) hd
      · rw [if_neg hqp]
        exact .same x hx (by simpa [hqp] using hu) hd
  | decrease j q hh hn =>
      have hu := uses_set (y := .dead) (s.inners.modify q Inner.decrease) hh p
      have hd := deleters_set (y := .dead) (s.inners.modify q Inner.decrease) hh p
      simp only [Handle.counted, Handle.deletes, Bool.false_eq_true, if_false,
        Nat.add_zero] at hu hd
      obtain ⟨x, hx, rfl⟩ := getElem?_modify_eq hy
      by_cases hqp : q = p
      · subst q
        rw [if_pos rfl]
        rw [hx] at hn
        exact .decrease x hx (by simpa using hn) (by simpa using hu) hd
      · rw [if_neg hqp]
        exact .same x hx (by simpa [hqp] using hu) hd
  | last j q hh hz =>
      have hu := uses_set (y := .deleting q) (s.inners.modify q Inner.decrease) hh p
      have hd := deleters_set (y := .deleting q) (s.inners.modify q Inner.decrease) hh p
      simp only [Handle.counted, Handle.deletes, Bool.false_eq_true, if_false,
        Nat.add_zero] at hu hd
      obtain ⟨x, hx, rfl⟩ := getElem?_modify_eq hy
      by_cases hqp : q = p
      · subst q
        rw [if_pos rfl]
        rw [hx] at hz
        exact .last x hx (by simpa using hz) (by simpa using hu) (by simpa using hd)
      · rw [if_neg hqp]
        exact .same x hx (by simpa [hqp] using hu) (by simpa [hqp] using hd)
  | delete j q hh =>
      have hu := uses_set (y := .dead) (s.inners.modify q Inner.delete) hh p
      have hd := deleters_set (y := .dead) (s.inners.modify q Inner.delete) hh p
      simp only [Handle.counted, Handle.deletes, Bool.false_eq_true, if_false,
        Nat.add_zero] at hu hd
      obtain ⟨x, hx, rfl⟩ := getElem?_modify_eq hy
      by_cases hqp : q = p
      · subst q
        rw [if_pos rfl]
        exact .delete x hx hu (by simpa using hd)
      · rw [if_neg hqp]
        exact .same x hx hu (by simpa [hqp] using hd)

theorem Sound.step_balance (ht : Trans s a t) (h : Sound s) (p : ℕ) (y : Inner)
    (hy : t.inners[p]? = some y) : y.count = BitVec.ofNat 32 (t.uses p) := by
  have hsucc : ∀ k : ℕ, BitVec.ofNat 32 (k + 1) = BitVec.ofNat 32 k + 1 := by
    intro k
    rw [BitVec.ofNat_add]
    rfl
  cases effect_of_trans ht h hy with
  | fresh hp hu hd => rw [hu]; rfl
  | same _ hx hu hd => rw [hu, h.balance p y hx]
  | increase x j src ha hj hx hpos hu hd =>
      rw [hu, hsucc, ← h.balance p x hx]
      rfl
  | decrease x hx hn hu hd | last x hx hz hu hd =>
      have hb := h.balance p x hx
      rw [← hu, hsucc] at hb
      change x.count - 1 = _
      rw [hb, BitVec.add_sub_cancel]
  | delete x hx hu hd => rw [hu, ← h.balance p x hx]; rfl

theorem Sound.step (ht : Trans s a t) (h : Sound s) : Sound t :=
  ⟨h.step_valid ht, h.step_copying ht, h.step_moving ht, h.step_exclusive ht, h.step_balance ht⟩

end Effect

theorem reachable_sound {s : State} (h : machine.Reachable s) : Sound s :=
  h.invariant (by constructor <;> simp [machine]) (fun _ hi hst => hi.step (step_trans hst))

/-- A copy is completed only while the count is below its largest value. -/
def FitsInt (s : State) (a : Act) : Prop :=
  ∀ h p src, a = .increase h → s.handles[h]? = some (.copying p src) → s.uses p + 1 < 2 ^ 31

structure Owned (s : State) (p : ℕ) (x : Inner) : Prop where
  fits : s.uses p < 2 ^ 31
  held : 0 < s.uses p → x.deletions = 0 ∧ s.deleters p = 0
  freed : s.uses p = 0 → x.deletions + s.deleters p = 1

theorem decrease_count_eq_zero {s : State} (h : Sound s) {p : ℕ} {x : Inner}
    (hx : s.inners[p]? = some x) (ho : s.uses p < 2 ^ 31) :
    x.decrease.count = 0 ↔ s.uses p = 1 := by
  have hb := h.balance p x hx
  have hsub : x.decrease.count = 0 ↔ x.count = 1 := by
    change x.count - 1 = 0 ↔ _
    bv_omega
  rw [hsub, hb, ← BitVec.toNat_inj, BitVec.toNat_ofNat, Nat.mod_eq_of_lt (by omega)]
  rfl

theorem owned_step {s t : State} {a : Act} (ht : Trans s a t) (hs : Sound s) (hc : FitsInt s a)
    (ho : ∀ (p : ℕ) (x : Inner), s.inners[p]? = some x → Owned s p x) (p : ℕ) (y : Inner)
    (hy : t.inners[p]? = some y) : Owned t p y := by
  cases effect_of_trans ht hs hy with
  | fresh hp hu hd => exact ⟨by omega, fun _ => ⟨rfl, hd⟩, fun hz => by omega⟩
  | same _ hx hu hd =>
      obtain ⟨hfits, hheld, hfreed⟩ := ho p y hx
      exact ⟨by omega, fun hpos => by rw [hd]; exact hheld (by omega),
        fun hz => by rw [hd]; exact hfreed (by omega)⟩
  | increase x j src ha hj hx hpos hu hd =>
      refine ⟨by rw [hu]; exact hc j p src ha hj, fun _ => ?_, fun hz => by omega⟩
      rw [hd]
      exact (ho p x hx).held hpos
  | decrease x hx hn hu hd =>
      obtain ⟨hfits, hheld, _⟩ := ho p x hx
      have hne : s.uses p ≠ 1 := fun he => hn ((decrease_count_eq_zero hs hx hfits).2 he)
      refine ⟨by omega, fun _ => ?_, fun hz => by omega⟩
      rw [hd]
      exact hheld (by omega)
  | last x hx hz hu hd =>
      obtain ⟨hfits, hheld, _⟩ := ho p x hx
      have hone := (decrease_count_eq_zero hs hx hfits).1 hz
      have hnone := hheld (by omega)
      refine ⟨by omega, fun hpos => by omega, fun _ => ?_⟩
      change x.deletions + _ = 1
      omega
  | delete x hx hu hd =>
      obtain ⟨hfits, hheld, hfreed⟩ := ho p x hx
      have hzero : s.uses p = 0 := by
        by_contra hne
        have := (hheld (by omega)).2
        omega
      refine ⟨by omega, fun hpos => by omega, fun _ => ?_⟩
      change x.deletions + 1 + _ = 1
      have := hfreed hzero
      omega

theorem reachableBy_owned {s : State} (h : machine.ReachableBy FitsInt s) (p : ℕ) (x : Inner)
    (hx : s.inners[p]? = some x) : Owned s p x := by
  revert p x
  refine h.invariant (I := fun s => ∀ (p : ℕ) (x : Inner), s.inners[p]? = some x → Owned s p x)
    (by simp [machine]) ?_
  intro s t a hr hi hc hst
  exact owned_step (step_trans hst) (reachable_sound hr.reachable) hc hi

/-- A deletion is the last step of a destructor whose decrement gave 0. -/
theorem trans_deletions {s t : State} {a : Act} (ht : Trans s a t) {p : ℕ} {x y : Inner}
    (hx : s.inners[p]? = some x) (hy : t.inners[p]? = some y) (hne : y.deletions ≠ x.deletions) :
    ∃ h, a = .delete h ∧ s.handles[h]? = some (.deleting p) := by
  cases ht with
  | delete j q hh =>
      obtain ⟨z, hz, rfl⟩ := getElem?_modify_eq hy
      rw [hx] at hz
      obtain rfl := Option.some.inj hz
      by_cases hqp : q = p
      · exact ⟨j, rfl, by rw [hh, hqp]⟩
      · rw [if_neg hqp] at hne
        exact absurd rfl hne
  | increase j q src hh | decrease j q hh hn | last j q hh hz =>
      obtain ⟨z, hz', rfl⟩ := getElem?_modify_eq hy
      rw [hx] at hz'
      obtain rfl := Option.some.inj hz'
      split_ifs at hne <;> exact absurd rfl hne
  | construct =>
      have hlt := (List.getElem?_eq_some_iff.1 hx).1
      rw [List.getElem?_append_left hlt, hx] at hy
      exact absurd (congrArg Inner.deletions (Option.some.inj hy)).symm hne
  | copyFrom src q hh hm | moveFrom src q hh hb | clear j q src hh | skip j hh hb
  | release j q hh hb =>
      rw [hx] at hy
      exact absurd (congrArg Inner.deletions (Option.some.inj hy)).symm hne

theorem trans_deleting {s t : State} {a : Act} (ht : Trans s a t) {h p : ℕ}
    (hh : t.handles[h]? = some (.deleting p)) (hne : s.handles[h]? ≠ some (.deleting p)) :
    a = .decrease h ∧ s.handles[h]? = some (.releasing p) ∧
      s.inners[p]?.map (fun x => x.decrease.count) = some 0 := by
  cases ht with
  | last j q hr hz =>
      rcases getElem?_set_cases hh with ⟨rfl, he⟩ | ⟨_, hold⟩
      · obtain rfl := Handle.deleting.inj he
        exact ⟨rfl, hr, hz⟩
      · exact absurd hold hne
  | construct | copyFrom src q hr hm | moveFrom src q hr hb =>
      rcases getElem?_append_singleton hh with hold | ⟨_, he⟩
      · exact absurd hold hne
      · cases he
  | increase j q src hr | skip j hr hb | release j q hr hb | decrease j q hr hn | delete j q hr =>
      rcases getElem?_set_cases hh with ⟨_, he⟩ | ⟨_, hold⟩
      · cases he
      · exact absurd hold hne
  | clear j q src hr =>
      rcases getElem?_set_cases hh with ⟨_, he⟩ | ⟨_, hmid⟩
      · cases he
      · rcases getElem?_set_cases hmid with ⟨_, he⟩ | ⟨_, hold⟩
        · cases he
        · exact absurd hold hne

/-- As long as no object has 2³¹ counted handles: `count_` is the number of counted
handles; an object with a counted handle is not deleted nor about to be, and one
without has been deleted once or is about to be by exactly one destructor; and a
deletion is made only by a destructor whose decrement gave 0. -/
theorem count_eq_uses_and_deleted_once {s : State} (h : machine.ReachableBy FitsInt s) :
    (∀ (p : ℕ) (x : Inner), s.inners[p]? = some x → x.count.toInt = s.uses p ∧
      (0 < s.uses p → x.deletions = 0 ∧ s.deleters p = 0) ∧
      (s.uses p = 0 → x.deletions + s.deleters p = 1)) ∧
    (∀ (a : Act) (t : State) (p : ℕ) (x y : Inner), machine.step s a = some t →
      s.inners[p]? = some x → t.inners[p]? = some y → y.deletions ≠ x.deletions →
      ∃ h, a = .delete h ∧ s.handles[h]? = some (.deleting p)) ∧
    (∀ (a : Act) (t : State) (h p : ℕ), machine.step s a = some t →
      t.handles[h]? = some (.deleting p) → s.handles[h]? ≠ some (.deleting p) →
      a = .decrease h ∧ s.handles[h]? = some (.releasing p) ∧
        s.inners[p]?.map (fun x => x.decrease.count) = some 0) := by
  refine ⟨?_, fun a t p x y hst => trans_deletions (step_trans hst),
    fun a t h p hst => trans_deleting (step_trans hst)⟩
  intro p x hx
  obtain ⟨hfits, hheld, hfreed⟩ := reachableBy_owned h p x hx
  refine ⟨?_, hheld, hfreed⟩
  have hnat : x.count.toNat = s.uses p := by
    rw [(reachable_sound h.reachable).balance p x hx, BitVec.toNat_ofNat]
    exact Nat.mod_eq_of_lt (by omega)
  rw [BitVec.toInt_eq_toNat_of_lt (by omega), hnat]

theorem fitsInt_of_length {s : State} (hlen : s.handles.length + 1 < 2 ^ 31) (a : Act) :
    FitsInt s a := by
  intro h p src _ _
  have hle : s.uses p ≤ s.handles.length := List.countP_le_length
  omega

/-- A handle is copied, and the original is destroyed. -/
theorem count_eq_uses_and_deleted_once_copied : ∃ s, machine.run
      [.construct, .copyFrom 0, .increase 1, .destroy 0, .decrease 0] = some s ∧
    s.uses 0 = 1 ∧ ∃ x, s.inners[0]? = some x ∧ x.count.toInt = 1 := by
  have hby : machine.ReachableBy FitsInt ⟨[⟨1, 0⟩], [.dead, .live (some 0)]⟩ := by
    have h₀ : machine.ReachableBy FitsInt ⟨[], []⟩ := .init
    have h₁ : machine.ReachableBy FitsInt ⟨[⟨1, 0⟩], [.live (some 0)]⟩ :=
      h₀.step (a := .construct) (fitsInt_of_length (by decide) _) rfl
    have h₂ : machine.ReachableBy FitsInt ⟨[⟨1, 0⟩], [.live (some 0), .copying 0 0]⟩ :=
      h₁.step (a := .copyFrom 0) (fitsInt_of_length (by decide) _) rfl
    have h₃ : machine.ReachableBy FitsInt ⟨[⟨2, 0⟩], [.live (some 0), .live (some 0)]⟩ :=
      h₂.step (a := .increase 1) (fitsInt_of_length (by decide) _) rfl
    have h₄ : machine.ReachableBy FitsInt ⟨[⟨2, 0⟩], [.releasing 0, .live (some 0)]⟩ :=
      h₃.step (a := .destroy 0) (fitsInt_of_length (by decide) _) rfl
    exact h₄.step (a := .decrease 0) (fitsInt_of_length (by decide) _) rfl
  exact ⟨_, rfl, rfl, _, rfl, ((count_eq_uses_and_deleted_once hby).1 0 _ rfl).1⟩

/-- One handle and `k` copies of it. -/
def copies : ℕ → List Act
  | 0 => [.construct]
  | k + 1 => copies k ++ [.copyFrom 0, .increase (k + 1)]

theorem run_copies (k : ℕ) : machine.run (copies k) =
    some ⟨[⟨BitVec.ofNat 32 (k + 1), 0⟩], List.replicate (k + 1) (.live (some 0))⟩ := by
  induction k with
  | zero => rfl
  | succ k ih =>
      have hcopy : machine.step ⟨[⟨BitVec.ofNat 32 (k + 1), 0⟩],
          List.replicate (k + 1) (.live (some 0))⟩ (.copyFrom 0) =
          some ⟨[⟨BitVec.ofNat 32 (k + 1), 0⟩],
            List.replicate (k + 1) (.live (some 0)) ++ [.copying 0 0]⟩ := by
        simp [machine, step, Handle.movesFrom]
      have hincr : machine.step ⟨[⟨BitVec.ofNat 32 (k + 1), 0⟩],
          List.replicate (k + 1) (.live (some 0)) ++ [.copying 0 0]⟩ (.increase (k + 1)) =
          some ⟨[⟨BitVec.ofNat 32 (k + 1 + 1), 0⟩],
            List.replicate (k + 1 + 1) (.live (some 0))⟩ := by
        simp [machine, step, Inner.increase, List.replicate_succ', BitVec.ofNat_add]
      change machine.run (copies k ++ [.copyFrom 0, .increase (k + 1)]) = _
      rw [Machine.run, Machine.runFrom_append]
      change (machine.run (copies k)).bind _ = _
      rw [ih]
      simp [Machine.runFrom, hcopy, hincr]

theorem uses_copies (k : ℕ) : ∃ s x, machine.run (copies k) = some s ∧ s.inners[0]? = some x ∧
    s.uses 0 = k + 1 ∧ x.count = BitVec.ofNat 32 (k + 1) := by
  refine ⟨_, _, run_copies k, rfl, ?_, rfl⟩
  change List.countP (Handle.counted 0) (List.replicate (k + 1) _) = k + 1
  rw [List.countP_replicate, if_pos (by simp [Handle.counted])]

/-- With 2³¹ handles the counter shows -2³¹. -/
theorem count_wraps : ∃ s x, machine.run (copies (2 ^ 31 - 1)) = some s ∧ s.inners[0]? = some x ∧
    s.uses 0 = 2 ^ 31 ∧ x.count.toInt = -2 ^ 31 := by
  obtain ⟨s, x, hrun, hx, hu, hc⟩ := uses_copies (2 ^ 31 - 1)
  refine ⟨s, x, hrun, hx, by omega, ?_⟩
  rw [hc]
  decide

end Londa.MyFuture
