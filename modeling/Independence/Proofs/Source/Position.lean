import Mathlib.Data.List.Induction
import Mathlib.Data.String.Basic
import Mathlib.Data.Prod.Lex
import Independence.Source.Position
/-!
# Positions and offsets

A byte offset reaches a beginning of the text: the shortest one that has so many bytes. Its position is the one behind that
beginning, which is a matter of the line feeds in it and of the characters behind the last of them. A longer beginning has a
later position, so positions are in the order of offsets, and spans of one text can be merged by their offsets.
-/

namespace Independence

open String (utf8Len)

namespace Position

variable {text p q r : List Char} {offset : Nat}

/-- Line and column, for the order of positions. -/
def key (x : Position) : ℕ ×ₗ ℕ := toLex (x.line, x.column)

/-- The position behind some characters that stand at the beginning: lines end with a line feed. -/
def behind (p : List Char) : Position := ⟨1 + p.count '\n', 1 + (p.reverse.takeWhile (· ≠ '\n')).length⟩

/-- The beginning `p` of the text is the shortest one with at least so many bytes, or all of the text if there is none. -/
structure Reaches (text : List Char) (offset : Nat) (p : List Char) : Prop where
  isPrefix : p <+: text
  enough : offset ≤ utf8Len p ∨ p = text
  shortest : ∀ q, q <+: text → q.length < p.length → utf8Len q < offset

/-! ## What an offset reaches -/

namespace Reaches

theorem nil : Reaches [] offset [] where
  isPrefix := List.nil_prefix
  enough := .inr rfl
  shortest _ _ hlt := absurd hlt (Nat.not_lt_zero _)

theorem zero : Reaches text 0 [] where
  isPrefix := List.nil_prefix
  enough := .inl (Nat.zero_le _)
  shortest _ _ hlt := absurd hlt (Nat.not_lt_zero _)

/-- What is reached behind the first character. -/
theorem cons {c : Char} (h : Reaches text (offset - c.utf8Size) p) (hoffset : 0 < offset) :
    Reaches (c :: text) offset (c :: p) where
  isPrefix := List.cons_prefix_cons.2 ⟨rfl, h.isPrefix⟩
  enough := by
    rcases h.enough with henough | rfl
    · rw [String.utf8Len_cons]
      exact .inl (by omega)
    · exact .inr rfl
  shortest := by
    intro q hq hlt
    cases q with
    | nil => exact hoffset
    | cons d q =>
      obtain ⟨rfl, hrest⟩ := List.cons_prefix_cons.1 hq
      have hless := h.shortest q hrest (Nat.lt_of_succ_lt_succ hlt)
      rw [String.utf8Len_cons]
      omega

/-- A later offset reaches no less. -/
theorem mono {offset' : Nat} (h : Reaches text offset p) (h' : Reaches text offset' q) (hle : offset ≤ offset') :
    p <+: q := by
  refine List.prefix_of_prefix_length_le h.isPrefix h'.isPrefix (Nat.not_lt.1 fun hlt => ?_)
  have hless := h.shortest q h'.isPrefix hlt
  rcases h'.enough with henough | rfl
  · omega
  · have hlen := h.isPrefix.length_le
    omega

theorem unique (h : Reaches text offset p) (h' : Reaches text offset q) : p = q :=
  List.IsPrefix.eq_of_length_le (h.mono h' (Nat.le_refl _)) (h'.mono h (Nat.le_refl _)).length_le

/-- The end of a beginning reaches it. -/
theorem of_isPrefix (h : p <+: text) : Reaches text (utf8Len p) p where
  isPrefix := h
  enough := .inl (Nat.le_refl _)
  shortest := by
    intro q hq hlt
    obtain ⟨r, rfl⟩ := List.prefix_of_prefix_length_le hq h (Nat.le_of_lt hlt)
    have hr : utf8Len r ≠ 0 := by
      intro hzero
      rw [String.utf8Len_eq_zero.1 hzero, List.append_nil] at hlt
      exact Nat.lt_irrefl _ hlt
    rw [String.utf8Len_append]
    omega

end Reaches

/-- The walk goes through what is reached, character by character. -/
theorem walk_reaches (x : Position) (text : List Char) (offset : Nat) :
    ∃ p, Reaches text offset p ∧ walk x text offset = p.foldl advance x := by
  induction text generalizing x offset with
  | nil => exact ⟨[], .nil, rfl⟩
  | cons c text ih =>
    cases offset with
    | zero => exact ⟨[], .zero, rfl⟩
    | succ offset =>
      obtain ⟨p, hp, hwalk⟩ := ih (x.advance c) (offset + 1 - c.utf8Size)
      exact ⟨c :: p, hp.cons (Nat.succ_pos offset), hwalk⟩

/-! ## Positions behind beginnings -/

theorem behind_concat (p : List Char) (c : Char) : behind (p ++ [c]) = (behind p).advance c := by
  unfold advance
  split
  · next hc => simp [behind, hc, Nat.add_assoc]
  · next hc => simp [behind, hc, Nat.add_comm 1]

theorem foldl_advance (p : List Char) : p.foldl advance start = behind p := by
  induction p using List.reverseRecOn with
  | nil => rfl
  | append_singleton p c ih => rw [List.foldl_concat, ih, behind_concat]

theorem key_lt_advance (x : Position) (c : Char) : x.key < (x.advance c).key := by
  unfold advance
  rw [key, key, Prod.Lex.toLex_lt_toLex]
  split
  · exact .inl (Nat.lt_succ_self _)
  · exact .inr ⟨rfl, Nat.lt_succ_self _⟩

theorem key_behind_le_append (p r : List Char) : (behind p).key ≤ (behind (p ++ r)).key := by
  induction r using List.reverseRecOn with
  | nil => rw [List.append_nil]
  | append_singleton r c ih =>
    rw [← List.append_assoc, behind_concat]
    exact ih.trans (key_lt_advance _ c).le

theorem key_behind_le (h : p <+: q) : (behind p).key ≤ (behind q).key := by
  obtain ⟨r, rfl⟩ := h
  exact key_behind_le_append p r

/-- What is longer ends later. -/
theorem key_behind_lt (h : p <+: q) (hlt : p.length < q.length) : (behind p).key < (behind q).key := by
  obtain ⟨r, rfl⟩ := h
  cases r with
  | nil =>
    rw [List.append_nil] at hlt
    exact absurd hlt (Nat.lt_irrefl _)
  | cons c r =>
    calc (behind p).key < ((behind p).advance c).key := key_lt_advance _ c
      _ = (behind (p ++ [c])).key := by rw [behind_concat]
      _ ≤ (behind (p ++ c :: r)).key := by simpa using key_behind_le_append (p ++ [c]) r

/-! ## Positions of offsets -/

/-- The position of an offset is the one behind what it reaches. -/
theorem ofOffset_eq {source : String} (h : Reaches source.toList offset p) : ofOffset source offset = behind p := by
  obtain ⟨q, hq, hwalk⟩ := walk_reaches start source.toList offset
  rw [ofOffset, hwalk, foldl_advance, h.unique hq]

theorem exists_reaches (source : String) (offset : Nat) :
    ∃ p, Reaches source.toList offset p ∧ ofOffset source offset = behind p := by
  obtain ⟨p, hp, -⟩ := walk_reaches start source.toList offset
  exact ⟨p, hp, ofOffset_eq hp⟩

/-- Behind the beginning of a text. -/
theorem ofOffset_append (first rest : String) : ofOffset (first ++ rest) first.utf8ByteSize = behind first.toList := by
  rw [← String.utf8Len_toList]
  refine ofOffset_eq (.of_isPrefix ?_)
  rw [String.toList_append]
  exact List.prefix_append _ _

theorem monotone_ofOffset (source : String) : Monotone fun offset => (ofOffset source offset).key := by
  intro offset offset' hle
  obtain ⟨p, hp, he⟩ := exists_reaches source offset
  obtain ⟨q, hq, he'⟩ := exists_reaches source offset'
  simp only [he, he']
  exact key_behind_le (hp.mono hq hle)

theorem strictMonoOn_ofOffset (source : String) :
    StrictMonoOn (fun offset => (ofOffset source offset).key) {offset | String.Pos.Raw.IsValid source ⟨offset⟩} := by
  have hboundary : ∀ offset, String.Pos.Raw.IsValid source ⟨offset⟩ →
      ∃ p, p <+: source.toList ∧ utf8Len p = offset := by
    intro offset h
    obtain ⟨first, rest, rfl, hoffset⟩ := String.Pos.Raw.isValid_iff_exists_append.1 h
    refine ⟨first.toList, ?_, ?_⟩
    · rw [String.toList_append]
      exact List.prefix_append _ _
    · rw [String.utf8Len_toList]
      exact (congrArg String.Pos.Raw.byteIdx hoffset).symm
  intro offset h offset' h' hlt
  obtain ⟨p, hp, rfl⟩ := hboundary offset h
  obtain ⟨q, hq, rfl⟩ := hboundary offset' h'
  have hpq := (Reaches.of_isPrefix hp).mono (.of_isPrefix hq) (Nat.le_of_lt hlt)
  have hlength : p.length < q.length := by
    refine Nat.lt_of_le_of_ne hpq.length_le fun he => ?_
    rw [hpq.eq_of_length he] at hlt
    exact Nat.lt_irrefl _ hlt
  simp only [ofOffset_eq (.of_isPrefix hp), ofOffset_eq (.of_isPrefix hq)]
  exact key_behind_lt hpq hlength

end Position

/-- Spans of one text are merged by their offsets. -/
theorem Span.merge_ofRange (source : String) (a b c d : Nat) :
    (ofRange a b source).merge (ofRange c d source) = ofRange (min a c) (max b d) source := by
  unfold merge ofRange
  by_cases hac : a ≤ c
  · simp [hac]
  · have hca : c ≤ a := by omega
    simp [hac, hca]

/-- Positions, for every text. Every offset, also one inside a character or behind the text, reaches one beginning of the
text, and its position is a line further than line feeds in it, and a column further than characters behind the last of
them. Positions are in the order of offsets, strictly so at the boundaries between characters. To merge the spans of two
ranges, either way round, gives the span of the smallest range that covers both. -/
theorem Position.exact_and_ordered (source : String) :
    (∀ offset, ∃ p, Position.Reaches source.toList offset p ∧ (∀ q, Position.Reaches source.toList offset q → q = p) ∧
      Position.ofOffset source offset =
        ⟨1 + p.count '\n', 1 + (p.reverse.takeWhile (· ≠ '\n')).length⟩) ∧
    Monotone (fun offset => (Position.ofOffset source offset).key) ∧
    StrictMonoOn (fun offset => (Position.ofOffset source offset).key)
      {offset | String.Pos.Raw.IsValid source ⟨offset⟩} ∧
    ∀ a b c d,
      (Span.ofRange a b source).merge (.ofRange c d source) = .ofRange (min a c) (max b d) source ∧
      (Span.ofRange c d source).merge (.ofRange a b source) = .ofRange (min a c) (max b d) source := by
  refine ⟨fun offset => ?_, monotone_ofOffset source, strictMonoOn_ofOffset source, fun a b c d => ⟨?_, ?_⟩⟩
  · obtain ⟨p, hp, he⟩ := exists_reaches source offset
    exact ⟨p, hp, fun q hq => hq.unique hp, he⟩
  · exact Span.merge_ofRange source a b c d
  · rw [min_comm, max_comm]
    exact Span.merge_ofRange source c d a b

/-- An offset inside a character counts as its end, and one behind the text as the end of the text. -/
example : [0, 1, 2, 3, 9].map (Position.ofOffset "é\nx") = [⟨1, 1⟩, ⟨1, 2⟩, ⟨1, 2⟩, ⟨2, 1⟩, ⟨2, 2⟩] := by
  decide

end Independence
