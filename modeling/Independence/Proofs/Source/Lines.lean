import Independence.Source.Lines
import Independence.Proofs.Source.Position
/-!
# Lines and positions

The lines of a text are all of it, so just the offsets up to its end are found in them. If lines end with line feeds only,
an offset is found at the position behind the characters before it. The end is the exception: it belongs to the last line
even if that one has ended.
-/

namespace Independence.Lines

open Position (advance behind)

variable {text line w : List Char} {lines : List (List Char)} {number offset : Nat}

/-! ## What is found -/

theorem flatten_split (text : List Char) : (split text).flatten = text := by
  fun_induction split text with
  | case1 => rfl
  | case2 rest ih => simp [ih]
  | case3 c rest _ _ ih => simp [ih]
  | case4 c rest _ _ hnil ih => simp_all
  | case5 c rest _ _ line lines hcons ih => simp_all

theorem split_ne_nil (h : text ≠ []) : split text ≠ [] := by
  intro hnil
  rw [← flatten_split text, hnil] at h
  exact h rfl

/-- An offset inside the first line is found there. -/
theorem locate?_cons_of_lt (number : Nat) (lines : List (List Char)) (hlt : offset < line.length) :
    locate? number (line :: lines) offset = some ⟨number, offset + 1⟩ := by
  cases lines with
  | nil => exact if_pos (Nat.le_of_lt hlt)
  | cons next lines => exact if_pos hlt

/-- Another one is looked for behind that line, if anything is there. -/
theorem locate?_cons_of_le (number : Nat) (hlines : lines ≠ []) (hle : line.length ≤ offset) :
    locate? number (line :: lines) offset = locate? (number + 1) lines (offset - line.length) := by
  cases lines with
  | nil => exact absurd rfl hlines
  | cons next lines => exact if_neg (Nat.not_lt.2 hle)

theorem locate?_isSome (hlines : lines ≠ []) :
    (locate? number lines offset).isSome = true ↔ offset ≤ lines.flatten.length := by
  induction lines generalizing number offset with
  | nil => exact absurd rfl hlines
  | cons line lines ih =>
    rw [List.flatten_cons, List.length_append]
    by_cases hlt : offset < line.length
    · rw [locate?_cons_of_lt number lines hlt]
      simp
      omega
    · by_cases hrest : lines = []
      · subst hrest
        by_cases hle : offset ≤ line.length <;> simp [locate?, hle]
      · rw [locate?_cons_of_le number hrest (Nat.not_lt.1 hlt), ih hrest]
        omega

/-- The offsets up to the end of a text have positions, except that an empty text has none. -/
theorem position?_isSome_iff (source : String) :
    (position? source offset).isSome = true ↔ source ≠ "" ∧ offset ≤ source.length := by
  by_cases hempty : source = ""
  · simp [hempty, position?, split, locate?]
  · have hne : split source.toList ≠ [] := split_ne_nil (by simpa using hempty)
    rw [position?, locate?_isSome hne, flatten_split, String.length_toList]
    simp [hempty]

/-! ## Lines that end with line feeds -/

/-- Each line is some characters and a line feed, the last one perhaps without. -/
inductive Fed : List (List Char) → Prop
  | nil : Fed []
  | last {w : List Char} (hw : '\n' ∉ w) (hne : w ≠ []) : Fed [w]
  | cons {w : List Char} {lines : List (List Char)} (hw : '\n' ∉ w) (hlines : Fed lines) : Fed ((w ++ ['\n']) :: lines)

/-- If there are no other terminators, the lines are such. -/
theorem fed_split (h : ∀ c ∈ text, isTerminator c = true → c = '\n') : Fed (split text) := by
  fun_induction split text with
  | case1 => exact .nil
  | case2 rest ih => exact absurd (h '\r' List.mem_cons_self rfl) (by decide)
  | case3 c rest _ hc ih =>
    obtain rfl := h c List.mem_cons_self hc
    exact .cons (w := []) List.not_mem_nil (ih fun d hd => h d (List.mem_cons_of_mem _ hd))
  | case4 c rest _ hc hnil ih =>
    have hfeed : '\n' ≠ c := by
      rintro rfl
      exact hc rfl
    exact .last (by simpa using hfeed) (by simp)
  | case5 c rest _ hc line lines hcons ih =>
    have hfeed : '\n' ≠ c := by
      rintro rfl
      exact hc rfl
    have ih := ih fun d hd => h d (List.mem_cons_of_mem _ hd)
    rw [hcons] at ih
    cases ih with
    | last hw _ => exact .last (by simp [hfeed, hw]) (by simp)
    | @cons w _ hw hlines => exact .cons (w := c :: w) (by simp [hfeed, hw]) hlines

/-- Within a line the column goes on. -/
theorem foldl_advance_of_notMem (hw : '\n' ∉ w) (x : Position) : w.foldl advance x = ⟨x.line, x.column + w.length⟩ := by
  induction w generalizing x with
  | nil => rfl
  | cons c w ih =>
    rw [List.mem_cons, not_or] at hw
    have hc : x.advance c = ⟨x.line, x.column + 1⟩ := by
      unfold advance
      rw [if_neg fun h => hw.1 h.symm]
    rw [List.foldl_cons, ih hw.2, hc, List.length_cons]
    simp only [Position.mk.injEq, true_and]
    omega

/-- A line feed begins the next line. -/
theorem foldl_advance_line (hw : '\n' ∉ w) (rest : List Char) :
    (w ++ ['\n'] ++ rest).foldl advance ⟨number, 1⟩ = rest.foldl advance ⟨number + 1, 1⟩ := by
  rw [List.foldl_append, List.foldl_append, foldl_advance_of_notMem hw]
  rfl

namespace Fed

theorem eq_nil_of_flatten (h : Fed lines) (hflatten : lines.flatten = []) : lines = [] := by
  cases h with
  | nil => rfl
  | last hw hne => exact absurd (by simpa using hflatten) hne
  | cons hw hlines => simp at hflatten

/-- Before the end an offset is behind the characters before it. -/
theorem locate?_of_lt (h : Fed lines) (hlt : offset < lines.flatten.length) :
    locate? number lines offset = some ((lines.flatten.take offset).foldl advance ⟨number, 1⟩) := by
  induction h generalizing number offset with
  | nil => exact absurd hlt (Nat.not_lt_zero _)
  | @last w hw _ =>
    have hlt : offset < w.length := by simpa using hlt
    have htake : '\n' ∉ w.take offset := fun hmem => hw (List.mem_of_mem_take hmem)
    rw [List.flatten_singleton, foldl_advance_of_notMem htake]
    simp [locate?, Nat.le_of_lt hlt, Nat.add_comm]
  | @cons w lines hw hlines ih =>
    by_cases hline : offset < (w ++ ['\n']).length
    · have hle : offset ≤ w.length := by
        simp at hline
        omega
      have htake : '\n' ∉ w.take offset := fun hmem => hw (List.mem_of_mem_take hmem)
      rw [locate?_cons_of_lt number lines hline, List.flatten_cons, List.append_assoc, List.take_append_of_le_length hle,
        foldl_advance_of_notMem htake]
      simp [Nat.min_eq_left hle, Nat.add_comm]
    · have hline := Nat.not_lt.1 hline
      rw [List.flatten_cons, List.length_append] at hlt
      have hrest : offset - (w ++ ['\n']).length < lines.flatten.length := by omega
      have hne : lines ≠ [] := by
        rintro rfl
        exact Nat.not_lt_zero _ hrest
      rw [locate?_cons_of_le number hne hline, ih hrest, List.flatten_cons, List.take_append,
        List.take_of_length_le hline, foldl_advance_line hw]

/-- The end is on the last line, behind its last character. -/
theorem locate?_end (h : Fed lines) (hne : lines.flatten ≠ []) :
    ∃ x, lines.flatten.dropLast.foldl advance ⟨number, 1⟩ = x ∧
      locate? number lines lines.flatten.length = some ⟨x.line, x.column + 1⟩ := by
  refine ⟨_, rfl, ?_⟩
  induction h generalizing number with
  | nil => exact absurd rfl hne
  | @last w hw hw0 =>
    have hdrop : '\n' ∉ w.dropLast := fun hmem => hw (List.dropLast_subset w hmem)
    have hpos : 0 < w.length := List.length_pos_of_ne_nil hw0
    rw [List.flatten_singleton, foldl_advance_of_notMem hdrop]
    simp [locate?]
    omega
  | @cons w lines hw hlines ih =>
    by_cases hlast : lines.flatten = []
    · obtain rfl := hlines.eq_nil_of_flatten hlast
      simp [locate?, foldl_advance_of_notMem hw, Nat.add_comm]
    · have hne : lines ≠ [] := by
        rintro rfl
        exact hlast rfl
      rw [List.flatten_cons, List.length_append, locate?_cons_of_le number hne (Nat.le_add_right _ _),
        Nat.add_sub_cancel_left, ih hlast, List.dropLast_append_of_ne_nil hlast, foldl_advance_line hw]

end Fed

/-! ## Positions in such texts -/

theorem length_le_utf8ByteSize (s : String) : s.length ≤ s.utf8ByteSize := by
  rw [← String.utf8Len_toList, ← String.length_toList]
  induction s.toList with
  | nil => exact Nat.le_refl 0
  | cons c p ih =>
    have hc := c.utf8Size_pos
    rw [List.length_cons, String.utf8Len_cons]
    omega

section Feeds
variable {source : String} (h : ∀ c ∈ source.toList, isTerminator c = true → c = '\n')
include h

theorem position?_of_lt (hlt : offset < source.length) :
    position? source offset = some (behind (source.toList.take offset)) := by
  have hlines : offset < (split source.toList).flatten.length := by rwa [flatten_split, String.length_toList]
  rw [position?, (fed_split h).locate?_of_lt hlines, flatten_split, ← Position.foldl_advance]
  rfl

/-- The end is behind all positions before. -/
theorem position?_end (hne : source ≠ "") :
    ∃ x, position? source source.length = some x ∧ (behind source.toList.dropLast).key < x.key := by
  have hlines : (split source.toList).flatten ≠ [] := by simpa [flatten_split] using hne
  obtain ⟨x, hx, hfound⟩ := (fed_split h).locate?_end hlines
  rw [flatten_split] at hx hfound
  rw [String.length_toList] at hfound
  refine ⟨_, hfound, ?_⟩
  rw [← Position.foldl_advance, Position.start, hx, Position.key, Position.key, Prod.Lex.toLex_lt_toLex]
  exact .inr ⟨rfl, Nat.lt_succ_self _⟩

/-- No offset has the position of an earlier one. -/
theorem position?_ne {j k : Nat} (hjk : j < k) (hj : j < source.length) : position? source j ≠ position? source k := by
  have hlength : source.toList.length = source.length := String.length_toList
  rw [position?_of_lt h hj]
  intro he
  rcases Nat.lt_trichotomy k source.length with hk | rfl | hk
  · rw [position?_of_lt h hk, Option.some.injEq] at he
    have hprefix : source.toList.take j <+: source.toList.take k := List.take_prefix_take_left (Nat.le_of_lt hjk)
    have hlt := Position.key_behind_lt hprefix (by simp; omega)
    rw [he] at hlt
    exact lt_irrefl _ hlt
  · obtain ⟨x, hx, hlt⟩ := position?_end h (by
      rintro rfl
      exact Nat.not_lt_zero _ hj)
    rw [hx, Option.some.injEq] at he
    have hprefix : source.toList.take j <+: source.toList.dropLast := by
      rw [List.dropLast_eq_take]
      exact List.take_prefix_take_left (by omega)
    exact absurd (he ▸ Position.key_behind_le hprefix) (not_le_of_gt hlt)
  · have hsome : (position? source k).isSome = true := by
      rw [← he]
      rfl
    have hle := ((position?_isSome_iff source).1 hsome).2
    omega

/-- The number of bytes of a beginning is where its end is only if its characters have one byte each. -/
theorem position?_length_eq_iff {first : String} (hlt : first.length < source.length) :
    position? source first.length = position? source first.utf8ByteSize ↔ first.utf8ByteSize = first.length := by
  constructor
  · intro hsame
    rcases Nat.lt_or_eq_of_le (length_le_utf8ByteSize first) with hmore | heq
    · exact absurd hsame (position?_ne h hmore hlt)
    · exact heq.symm
  · intro hbytes
    rw [hbytes]

end Feeds

end Independence.Lines
