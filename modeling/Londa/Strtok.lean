import Londa.Buffer
import Mathlib.Data.List.TakeWhile

/-!
# Cutting a string into words in place

`strtok` looks for the next word behind the position that the previous call saved, writes a
zero byte over the separator that ends it and saves the position behind that. The words of a
string are its maximal runs of bytes that are not separators.
-/

namespace Londa

namespace Strtok

variable (sep : UInt8 → Bool) (size : ℕ)

/-- The buffer, the saved position and the word found, if any; without a result where the
string has no end inside the block. -/
def strtok (b : Buffer) (saved : ℕ) : Option (Buffer × ℕ × Option ℕ) :=
  match b.findFrom (fun c => !sep c) saved (size - saved) with
  | none => none
  | some token =>
      if b token = 0 then some (b, token, none)
      else
        match b.findFrom (fun c => sep c || c == 0) token (size - token) with
        | none => none
        | some stop =>
            if b stop = 0 then some (b, stop, some token)
            else some (b.store stop [0], stop + 1, some token)

/-- The loop that collects the words, for a bounded number of turns. -/
def tokenize : ℕ → Buffer → ℕ → Option (Buffer × List ℕ)
  | 0, _, _ => none
  | n + 1, b, saved =>
      match strtok sep size b saved with
      | none => none
      | some (b, _, none) => some (b, [])
      | some (b, saved, some token) =>
          (tokenize n b saved).map fun r => (r.1, token :: r.2)

def words (line : List UInt8) : List (List UInt8) := (line.splitOnP sep).filter (· ≠ [])

/-- The string in the block from `pos` on is `line`. -/
structure Holds (b : Buffer) (pos : ℕ) (line : List UInt8) : Prop where
  slice : b.slice pos line.length = line
  nul : (0 : UInt8) ∉ line
  stop : b (pos + line.length) = 0
  inside : pos + line.length < size

variable {sep} {size} {b : Buffer} {pos n : ℕ} {line u v : List UInt8} {c : UInt8}

theorem words_of_sep (h : sep c) : words sep (c :: line) = words sep line := by
  unfold words
  rw [List.splitOnP_cons_eq_if_modifyHead, if_pos h]
  simp

theorem words_seps_append (h : ∀ c ∈ u, sep c) : words sep (u ++ v) = words sep v := by
  induction u with
  | nil => rfl
  | cons c u ih =>
      rw [List.cons_append, words_of_sep (h c List.mem_cons_self),
        ih fun d hd => h d (List.mem_cons_of_mem c hd)]

theorem words_word (hne : u ≠ []) (h : ∀ c ∈ u, sep c = false) : words sep u = [u] := by
  unfold words
  rw [List.splitOnP_eq_singleton h]
  simp [hne]

theorem words_word_append (hne : u ≠ []) (h : ∀ c ∈ u, sep c = false) (hc : sep c) :
    words sep (u ++ c :: v) = u :: words sep v := by
  unfold words
  rw [List.splitOnP_append_cons_of_forall_mem h c hc]
  simp [hne]

namespace Holds

theorem congr {b' : Buffer} (h : Holds size b pos line)
    (hb : ∀ i, pos ≤ i → i ≤ pos + line.length → b' i = b i) : Holds size b' pos line where
  slice := by
    rw [← h.slice, Buffer.length_slice]
    exact Buffer.slice_congr fun i hi hlt => hb i hi (by omega)
  nul := h.nul
  stop := by rw [hb _ (by omega) le_rfl, h.stop]
  inside := h.inside

theorem right (h : Holds size b pos (u ++ v)) : Holds size b (pos + u.length) v where
  slice := (Buffer.slice_append_iff.1 h.slice).2
  nul := fun hmem => h.nul (List.mem_append_right u hmem)
  stop := by rw [Nat.add_assoc, ← List.length_append, h.stop]
  inside := by
    have hin := h.inside
    rw [List.length_append] at hin
    omega

/-- A zero byte written behind `u` leaves the string `u`. -/
theorem cut (h : Holds size b pos (u ++ v)) : Holds size (b.store (pos + u.length) [0]) pos u where
  slice := by
    rw [← (Buffer.slice_append_iff.1 h.slice).1, Buffer.length_slice]
    exact Buffer.slice_congr fun i _ hlt => if_neg (fun hin => by omega)
  nul := fun hmem => h.nul (List.mem_append_left v hmem)
  stop := by
    have hone : 0 < [(0 : UInt8)].length := Nat.zero_lt_one
    exact Buffer.store_apply b (pos + u.length) hone
  inside := by
    have hin := h.inside
    rw [List.length_append] at hin
    omega

theorem cstringFrom (h : Holds size b pos line) : b.cstringFrom size pos = some line := by
  have hin := h.inside
  unfold Buffer.cstringFrom
  rw [Buffer.strlenFrom_of_slice h.slice h.nul h.stop (by omega), Option.map_some,
    Nat.add_sub_cancel_left, h.slice]

/-- Only separators are left. -/
theorem strtok_none (h : Holds size b pos line) (hsep : ∀ c ∈ line, sep c)
    (hzero : sep 0 = false) : strtok sep size b pos = some (b, pos + line.length, none) := by
  have hin := h.inside
  have hfind : b.findFrom (fun c => !sep c) pos (size - pos) = some (pos + line.length) := by
    refine Buffer.findFrom_eq h.slice (fun c hc => ?_) ?_ (by omega)
    · rw [hsep c hc]
      rfl
    · rw [h.stop, hzero]
      rfl
  unfold strtok
  rw [hfind]
  exact if_pos h.stop

/-- A word behind separators, up to the next separator or the end. -/
theorem strtok_some {rest : List UInt8} (h : Holds size b pos (u ++ (v ++ rest)))
    (hu : ∀ c ∈ u, sep c) (hv : ∀ c ∈ v, sep c = false) (hne : v ≠ [])
    (hrest : ∀ c, rest.head? = some c → sep c) :
    strtok sep size b pos =
      if b (pos + u.length + v.length) = 0 then
        some (b, pos + u.length + v.length, some (pos + u.length))
      else some (b.store (pos + u.length + v.length) [0], pos + u.length + v.length + 1,
        some (pos + u.length)) := by
  have hword := h.right
  have hrest' := hword.right
  have hin := hrest'.inside
  have hslice := (Buffer.slice_append_iff.1 hword.slice).1
  have hvpos := List.length_pos_iff.2 hne
  obtain ⟨d, hd, hdv⟩ : ∃ d, b (pos + u.length) = d ∧ d ∈ v := by
    cases v with
    | nil => exact absurd rfl hne
    | cons d v => exact ⟨d, (Buffer.slice_cons_iff.1 hslice).1, List.mem_cons_self⟩
  have hnul (c : UInt8) (hc : c ∈ v) : c ≠ 0 := by
    rintro rfl
    exact hword.nul (List.mem_append_left rest hc)
  have htoken : b.findFrom (fun c => !sep c) pos (size - pos) = some (pos + u.length) := by
    refine Buffer.findFrom_eq (Buffer.slice_append_iff.1 h.slice).1 (fun c hc => ?_) ?_ (by omega)
    · rw [hu c hc]
      rfl
    · rw [hd, hv d hdv]
      rfl
  have hend : sep (b (pos + u.length + v.length)) = true ∨ b (pos + u.length + v.length) = 0 := by
    cases rest with
    | nil => exact .inr hrest'.stop
    | cons c rest =>
        rw [(Buffer.slice_cons_iff.1 hrest'.slice).1]
        exact .inl (hrest c rfl)
  have hstop : b.findFrom (fun c => sep c || c == 0) (pos + u.length)
      (size - (pos + u.length)) = some (pos + u.length + v.length) := by
    refine Buffer.findFrom_eq hslice (fun c hc => ?_) ?_ (by omega)
    · simp [hv c hc, hnul c hc]
    · simpa using hend
  have hfirst : b (pos + u.length) ≠ 0 := hd ▸ hnul d hdv
  unfold strtok
  rw [htoken]
  dsimp only
  rw [if_neg hfirst, hstop]

end Holds

theorem head?_dropWhile {p : UInt8 → Bool} (h : (line.dropWhile p).head? = some c) :
    p c = false := by
  have hnot := List.head?_dropWhile_not p line
  rw [h] at hnot
  exact hnot

/-- Separators, a word and what follows it. -/
theorem exists_split (sep : UInt8 → Bool) (line : List UInt8) :
    (∀ c ∈ line, sep c) ∨ ∃ u v rest, line = u ++ (v ++ rest) ∧ (∀ c ∈ u, sep c) ∧
      (∀ c ∈ v, sep c = false) ∧ v ≠ [] ∧ ∀ c, rest.head? = some c → sep c := by
  by_cases hall : ∀ c ∈ line, sep c
  · exact .inl hall
  · refine .inr ⟨line.takeWhile sep, (line.dropWhile sep).takeWhile (fun c => !sep c),
      (line.dropWhile sep).dropWhile (fun c => !sep c), ?_, ?_, ?_, ?_, ?_⟩
    · rw [List.takeWhile_append_dropWhile, List.takeWhile_append_dropWhile]
    · exact fun c hc => List.mem_takeWhile_imp hc
    · intro c hc
      simpa using List.mem_takeWhile_imp hc
    · have hne : line.dropWhile sep ≠ [] := fun h => hall (List.dropWhile_eq_nil_iff.1 h)
      obtain ⟨d, rest, hd⟩ := List.exists_cons_of_ne_nil hne
      have hfirst : sep d = false := head?_dropWhile (by rw [hd]; rfl)
      rw [hd, List.takeWhile_cons_of_pos (by rw [hfirst]; rfl)]
      exact List.cons_ne_nil _ _
    · intro c hc
      simpa using head?_dropWhile hc

/-- `tokenize` finds the words of the string, and leaves the bytes before it alone. -/
theorem tokenize_words (hzero : sep 0 = false) (h : Holds size b pos line)
    (hn : line.length < n) :
    ∃ b' argv, tokenize sep size n b pos = some (b', argv) ∧
      argv.map (b'.cstringFrom size) = (words sep line).map some ∧
      ∀ i, i < pos → b' i = b i := by
  induction n generalizing b pos line with
  | zero => cases hn
  | succ n ih =>
      rcases exists_split sep line with hall | ⟨u, v, rest, rfl, hu, hv, hne, hrest⟩
      · have hwords : words sep line = [] := by
          have heq := words_seps_append (v := []) hall
          rw [List.append_nil] at heq
          rw [heq]
          rfl
        refine ⟨b, [], ?_, ?_, fun _ _ => rfl⟩
        · rw [tokenize, h.strtok_none hall hzero]
        · rw [hwords]
          rfl
      · have hstrtok := h.strtok_some hu hv hne hrest
        have hafter := h.right.right
        have hvpos := List.length_pos_iff.2 hne
        rw [List.length_append, List.length_append] at hn
        rw [words_seps_append hu]
        cases rest with
        | nil =>
            have hstop : b (pos + u.length + v.length) = 0 := hafter.stop
            rw [if_pos hstop] at hstrtok
            have hword : Holds size b (pos + u.length) v := by
              have hright := h.right
              rwa [List.append_nil] at hright
            obtain ⟨m, rfl⟩ := Nat.exists_eq_add_of_lt (show 0 < n by omega)
            refine ⟨b, [pos + u.length], ?_, ?_, fun _ _ => rfl⟩
            · rw [tokenize, hstrtok]
              dsimp only
              rw [tokenize, hafter.strtok_none (by simp) hzero]
              rfl
            · rw [List.append_nil, words_word hne hv, List.map_singleton, List.map_singleton,
                hword.cstringFrom]
        | cons c rest =>
            have hc : sep c := hrest c rfl
            have hstop : b (pos + u.length + v.length) ≠ 0 := by
              rw [(Buffer.slice_cons_iff.1 hafter.slice).1]
              rintro rfl
              rw [hzero] at hc
              cases hc
            rw [if_neg hstop] at hstrtok
            have hword := h.right.cut
            have hnext : Holds size (b.store (pos + u.length + v.length) [0])
                (pos + u.length + v.length + 1) rest :=
              (hafter.right (u := [c])).congr fun i hi _ => Buffer.store_of_ge hi
            rw [List.length_cons] at hn
            obtain ⟨b', argv, hrun, hargv, hframe⟩ := ih hnext (by omega)
            refine ⟨b', (pos + u.length) :: argv, ?_, ?_, fun i hi => ?_⟩
            · rw [tokenize, hstrtok]
              dsimp only
              rw [hrun]
              rfl
            · have hkept : Holds size b' (pos + u.length) v :=
                hword.congr fun i _ hi => hframe i (by omega)
              rw [words_word_append hne hv hc, List.map_cons, List.map_cons, hkept.cstringFrom,
                hargv]
            · rw [hframe i (by omega)]
              exact if_neg (fun hin => by omega)

end Strtok
end Londa
