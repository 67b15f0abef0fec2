import Londa.Int32
import Londa.Istream

/-!
# Three loops over the lines of a file

Model of `code/lang/getline.cpp`. Each loop reads the file from its start, through a stream
whose state is clear, and prints the size of every line it counts. The first adds the sizes
to `count`, the other two subtract them. The second one tests `eofbit` between the call of
`getline` and the count.
-/

namespace Londa.Getline

def newline : UInt8 := 10

/-- `count`, and the sizes that a loop has counted. -/
structure Tally where
  count : ℤ
  sizes : List ℕ

def Tally.add (t : Tally) (line : List UInt8) : Tally :=
  ⟨int32 (t.count + line.length), t.sizes ++ [line.length]⟩

def Tally.sub (t : Tally) (line : List UInt8) : Tally :=
  ⟨int32 (t.count - line.length), t.sizes ++ [line.length]⟩

def firstLoop (st : Istream UInt8 × Tally) : (Istream UInt8 × Tally) ⊕ Tally :=
  Istream.eachLine newline Tally.add st

def secondLoop (st : Istream UInt8 × Tally) : (Istream UInt8 × Tally) ⊕ Tally :=
  if st.1.eof then .inr st.2
  else
    let got := st.1.getline newline []
    if got.1.eof then .inr st.2 else .inl (got.1, st.2.sub got.2)

def thirdLoop (st : Istream UInt8 × Tally) : (Istream UInt8 × Tally) ⊕ Tally :=
  if st.1.fail then .inr st.2
  else
    let got := st.1.getline newline []
    .inl (got.1, st.2.sub got.2)

/-- The three loops end with equal sums, and the second prints 0. -/
def Agree (content : List UInt8) : Prop :=
  ∃ first second third : Tally,
    Loop.Ends firstLoop (.opened content, ⟨0, []⟩) first ∧
    Loop.Ends secondLoop (.opened content, ⟨first.count, []⟩) second ∧
    Loop.Ends thirdLoop (.opened content, ⟨second.count, []⟩) third ∧
    first.sizes.sum = second.sizes.sum ∧ second.sizes.sum = third.sizes.sum ∧ second.count = 0

/-- The sizes of the lines, as a loop counts them. -/
def sizes (ls : List (List UInt8)) : List ℕ := ls.map List.length

variable {ls : List (List UInt8)} {szs : List ℕ} {z : ℤ} {s : Istream UInt8}

theorem sum_sizes (ls : List (List UInt8)) : (sizes ls).sum = ls.flatten.length :=
  List.length_flatten.symm

theorem add_line (l : List UInt8) :
    Tally.add ⟨int32 z, szs⟩ l = ⟨int32 (z + l.length), szs ++ [l.length]⟩ := by
  rw [Tally.add, int32_int32_add]

theorem sub_line (l : List UInt8) :
    Tally.sub ⟨int32 z, szs⟩ l = ⟨int32 (z - l.length), szs ++ [l.length]⟩ := by
  rw [Tally.sub, int32_int32_sub]

theorem foldl_add : ls.foldl Tally.add ⟨int32 z, szs⟩ =
    ⟨int32 (z + ((sizes ls).sum : ℕ)), szs ++ sizes ls⟩ := by
  induction ls generalizing z szs with
  | nil => simp [sizes]
  | cons l ls ih =>
      rw [List.foldl_cons, add_line, ih]
      simp [sizes, Int.add_assoc]

theorem firstLoop_ends (content : List UInt8) :
    Loop.Ends firstLoop (.opened content, ⟨0, []⟩)
      ⟨int32 ((sizes (Lines.lines newline content)).sum : ℕ),
        sizes (Lines.lines newline content)⟩ := by
  have hgood : (Istream.opened content).fail = false := rfl
  have hzero : int32 0 = 0 := int32_eq (by decide) (by decide)
  have hend := Istream.eachLine_ends newline Tally.add hgood ⟨int32 0, []⟩
  rw [foldl_add, Int.zero_add, List.nil_append, hzero] at hend
  exact hend

/-- The loop breaks at the end of the input, before a last line without a newline counts. -/
theorem secondLoop_ends (rest : List UInt8) (z : ℤ) (szs : List ℕ) :
    Loop.Ends secondLoop (.opened rest, ⟨int32 z, szs⟩)
      ⟨int32 (z - ((sizes (Lines.complete newline rest)).sum : ℕ)),
        szs ++ sizes (Lines.complete newline rest)⟩ := by
  induction hn : rest.length using Nat.strongRecOn generalizing rest z szs with
  | ind n ih =>
      by_cases hmem : newline ∈ rest
      · have hturn : secondLoop (.opened rest, ⟨int32 z, szs⟩) =
            .inl (.opened (Lines.getline newline rest).2,
              ⟨int32 (z - (Lines.getline newline rest).1.length),
                szs ++ [(Lines.getline newline rest).1.length]⟩) := by
          rw [← sub_line]
          simp [secondLoop, Istream.getline, Istream.opened, hmem]
        have hlt : (Lines.getline newline rest).2.length < n :=
          hn ▸ Lines.length_getline_lt (List.ne_nil_of_mem hmem)
        have hrest := ih _ hlt _ (z - (Lines.getline newline rest).1.length)
          (szs ++ [(Lines.getline newline rest).1.length]) rfl
        refine .again hturn ?_
        rw [Lines.complete_of_mem hmem]
        simpa [sizes, Int.sub_sub] using hrest
      · rw [Lines.complete_of_notMem hmem]
        refine .leave ?_
        simp [secondLoop, Istream.getline, Istream.opened, hmem, sizes]

theorem thirdLoop_turn (hfail : s.fail = false) (t : Tally) : thirdLoop (s, t) =
    .inl ((s.getline newline []).1, t.sub (s.getline newline []).2) :=
  if_neg (by rw [hfail]; exact Bool.false_ne_true)

/-- The call of `getline` that fails counts an empty line. -/
theorem thirdLoop_ends (hfail : s.fail = false) (z : ℤ) (szs : List ℕ) :
    Loop.Ends thirdLoop (s, ⟨int32 z, szs⟩)
      ⟨int32 (z - ((sizes (s.remaining newline)).sum : ℕ)),
        szs ++ sizes (s.remaining newline) ++ [0]⟩ := by
  generalize hls : s.remaining newline = ls
  induction ls generalizing s z szs with
  | nil =>
      obtain ⟨hend, hline⟩ := Istream.getline_of_remaining_nil hfail hls
      refine .again (thirdLoop_turn hfail _) (.leave ?_)
      rw [hline, sub_line]
      simp [thirdLoop, hend, sizes]
  | cons l ls ih =>
      obtain ⟨hl, hfail', hrest, -⟩ := Istream.getline_of_remaining_cons hfail hls
      refine .again (thirdLoop_turn hfail _) ?_
      rw [hl, sub_line]
      simpa [sizes, Int.sub_sub] using ih hfail' (z - l.length) (szs ++ [l.length]) hrest

theorem agree_iff (content : List UInt8) :
    Agree content ↔ content = [] ∨ content.getLast? = some newline := by
  have hfirst := firstLoop_ends content
  have hsecond := secondLoop_ends content
    ((sizes (Lines.lines newline content)).sum : ℕ) []
  have hgood : (Istream.opened content).fail = false := rfl
  have hthird := thirdLoop_ends hgood
    (((sizes (Lines.lines newline content)).sum : ℕ) -
      ((sizes (Lines.complete newline content)).sum : ℕ)) []
  rw [← Lines.length_flatten_complete_iff, ← sum_sizes, ← sum_sizes]
  constructor
  · rintro ⟨first, second, third, h₁, h₂, -, hsum, -, -⟩
    obtain rfl := h₁.unique hfirst
    obtain rfl := h₂.unique hsecond
    exact hsum.symm
  · intro hsum
    refine ⟨_, _, _, hfirst, hsecond, hthird, hsum.symm, ?_, ?_⟩
    · rw [List.nil_append, List.nil_append, List.sum_append, hsum]
      rfl
    · rw [hsum, Int.sub_self]
      exact int32_eq (by decide) (by decide)

/-- The last line is not ended by a newline: the second loop leaves its size in `count`. -/
theorem last_line_dropped :
    (∃ first second : Tally, Loop.Ends firstLoop (.opened [97, 10, 98, 99], ⟨0, []⟩) first ∧
      Loop.Ends secondLoop (.opened [97, 10, 98, 99], ⟨first.count, []⟩) second ∧
      first.sizes = [1, 2] ∧ second.sizes = [1] ∧ second.count = 2) ∧
    ¬ Agree [97, 10, 98, 99] := by
  have hfirst := firstLoop_ends [97, 10, 98, 99]
  have hsecond := secondLoop_ends [97, 10, 98, 99] 3 []
  refine ⟨⟨_, _, hfirst, hsecond, rfl, rfl, int32_eq (by decide) (by decide)⟩, ?_⟩
  rintro ⟨first, second, third, h₁, h₂, -, hsum, -, -⟩
  obtain rfl := h₁.unique hfirst
  obtain rfl := h₂.unique hsecond
  cases hsum

end Londa.Getline
