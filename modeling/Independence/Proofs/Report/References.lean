import Std.Data.String.ToNat
import Independence.Report.Excerpt
import Independence.Proofs.Source.Lines
/-!
# References of sections

The reference at the top of a section is a file with a line and a column, and it tells which. For the file of the
diagnostic it is the place of the diagnostic's own mark. That mark stands where its span says if it is counted in
characters, as marks are, but spans count bytes. So the reference is the diagnostic's own position if all characters before
it have one byte, and else it is not.
-/

namespace Independence

variable {s : Sources} {file text : String}

/-! ## Texts of places -/

namespace Position

/-- A file with a position in it. -/
def textIn (file : String) (x : Option Position) : String :=
  file ++ ":" ++ x.elim "?" (·.line.repr) ++ ":" ++ x.elim "?" (·.column.repr)

/-- What stands behind the last colon tells the rest. -/
theorem eq_of_append_colon {x x' y y' : List Char} (hy : ':' ∉ y) (hy' : ':' ∉ y')
    (h : x ++ ':' :: y = x' ++ ':' :: y') : x = x' ∧ y = y' := by
  rcases List.append_eq_append_iff.1 h with ⟨z, rfl, hz⟩ | ⟨z, rfl, hz⟩
  · cases z with
    | nil => simpa using hz
    | cons c z =>
      rw [List.cons_append, List.cons.injEq] at hz
      exact absurd (hz.2 ▸ by simp) hy
  · cases z with
    | nil => simpa [eq_comm] using hz
    | cons c z =>
      rw [List.cons_append, List.cons.injEq] at hz
      exact absurd (hz.2 ▸ by simp) hy'

theorem colon_notMem_repr (n : Nat) : ':' ∉ n.repr.toList := by
  intro h
  rw [Nat.toList_repr] at h
  exact absurd (Nat.isDigit_of_mem_toDigits (by decide) (by decide) h) (by decide)

theorem repr_ne_question (n : Nat) : n.repr ≠ "?" := by
  intro h
  have hmem : '?' ∈ n.repr.toList := by
    rw [h]
    decide
  rw [Nat.toList_repr] at hmem
  exact absurd (Nat.isDigit_of_mem_toDigits (by decide) (by decide) hmem) (by decide)

theorem toList_textIn (file : String) (x : Option Position) : (textIn file x).toList =
    (file.toList ++ ':' :: (x.elim "?" (·.line.repr)).toList) ++ ':' :: (x.elim "?" (·.column.repr)).toList := by
  simp [textIn]

/-- The text tells the file and the position. -/
theorem textIn_inj {file' : String} {x y : Option Position} : textIn file x = textIn file' y ↔ file = file' ∧ x = y := by
  have hcolon : ∀ (x : Option Position) (f : Position → Nat), ':' ∉ (x.elim "?" fun p => (f p).repr).toList := by
    intro x f
    cases x with
    | none => simp
    | some p => exact colon_notMem_repr (f p)
  constructor
  · intro h
    have h := congrArg String.toList h
    rw [toList_textIn, toList_textIn] at h
    have hcolumn := eq_of_append_colon (hcolon x column) (hcolon y column) h
    have hline := eq_of_append_colon (hcolon x line) (hcolon y line) hcolumn.1
    refine ⟨String.toList_inj.1 hline.1, ?_⟩
    have hcolumn := String.toList_inj.1 hcolumn.2
    have hline := String.toList_inj.1 hline.2
    cases x with
    | none =>
      cases y with
      | none => rfl
      | some q => exact absurd hline.symm (repr_ne_question q.line)
    | some p =>
      cases y with
      | none => exact absurd hline (repr_ne_question p.line)
      | some q =>
        obtain ⟨hline, hcolumn⟩ := And.intro (Nat.repr_inj.1 hline) (Nat.repr_inj.1 hcolumn)
        cases p
        cases q
        simp_all
  · rintro ⟨rfl, rfl⟩
    rfl

end Position

theorem Rendering.reference_eq (s : Sources) (file : String) (offset : Nat) :
    Rendering.reference s file offset = Position.textIn file ((s.last? file).bind (Lines.position? · offset)) := by
  unfold reference
  cases (s.last? file).bind (Lines.position? · offset) with
  | none =>
    simp only [Position.textIn, Option.elim_none, String.append_assoc]
    rfl
  | some p => rfl

theorem Location.text_eq (l : Location) (h : l.span.line ≠ 0) :
    l.text = Position.textIn l.file (some ⟨l.span.line, l.span.column⟩) := by
  have hdummy : l.span.isDummy = false := by simpa [Span.isDummy] using h
  unfold text
  rw [hdummy]
  rfl

/-! ## Registered texts -/

namespace Sources

theorem lookup_of_filter {files : List (String × String)} (h : files.filter (·.1 == file) = [(file, text)]) :
    files.lookup file = some text := by
  induction files with
  | nil => cases h
  | cons f files ih =>
    obtain ⟨name, content⟩ := f
    by_cases hname : name = file
    · subst hname
      simp only [List.filter_cons, beq_self_eq_true, if_true, List.cons.injEq, Prod.mk.injEq, true_and] at h
      simp [h.1]
    · have hother : (file == name) = false := beq_eq_false_iff_ne.2 (Ne.symm hname)
      rw [List.lookup_cons, hother]
      exact ih (by simpa [hname] using h)

/-- A file that is registered once has one text. -/
theorem texts_of_filter (h : s.files.filter (·.1 == file) = [(file, text)]) :
    s.first? file = some text ∧ s.last? file = some text := by
  refine ⟨lookup_of_filter h, lookup_of_filter ?_⟩
  rw [List.filter_reverse, h]
  rfl

end Sources

/-! ## Sections -/

variable {d : Diagnostic} {l : Location} {color : Bool} {x : Option Position}

namespace Mark

/-- A mark shows if its last character, or its place if it is empty, is within the text or right at its end. -/
theorem isVisible_iff {m : Mark} (h : s.last? m.file = some text) :
    m.isVisible s = true ↔ text ≠ "" ∧ m.lastOffset ≤ text.length := by
  have hle : m.start ≤ m.lastOffset := Nat.le_max_left _ _
  unfold isVisible
  rw [h]
  simp only [Bool.and_eq_true, Lines.position?_isSome_iff]
  constructor
  · rintro ⟨-, hvisible⟩
    exact hvisible
  · intro hvisible
    exact ⟨⟨hvisible.1, Nat.le_trans hle hvisible.2⟩, hvisible⟩

theorem mem_ofDiagnostic {m : Mark} : m ∈ ofDiagnostic s d l text ↔
    m = place l text.utf8ByteSize d.severity.color ∨
      ∃ label ∈ d.labels, ∃ t, s.first? label.location.file = some t ∧
        place label.location t.utf8ByteSize (if label.primary then d.severity.color else .blue) = m := by
  simp [ofDiagnostic]

/-- Something shows in a file if the diagnostic's own mark does or one of its labels. -/
theorem exists_visible_iff (hfirst : s.first? l.file = some text) (hlast : s.last? l.file = some text) (hne : text ≠ "") :
    (∃ m ∈ ofDiagnostic s d l text, m.isVisible s = true ∧ m.file = l.file) ↔
      (place l text.utf8ByteSize d.severity.color).lastOffset ≤ text.length ∨
        ∃ label ∈ d.labels, label.location.file = l.file ∧
          (place label.location text.utf8ByteSize .blue).lastOffset ≤ text.length := by
  constructor
  · rintro ⟨m, hm, hvisible, hfile⟩
    have hvisible := ((isVisible_iff (hfile ▸ hlast)).1 hvisible).2
    rcases mem_ofDiagnostic.1 hm with rfl | ⟨label, hlabel, t, ht, rfl⟩
    · exact .inl hvisible
    · have hfile : label.location.file = l.file := hfile
      rw [hfile, hfirst, Option.some.injEq] at ht
      subst ht
      exact .inr ⟨label, hlabel, hfile, hvisible⟩
  · rintro (hvisible | ⟨label, hlabel, hfile, hvisible⟩)
    · exact ⟨_, mem_ofDiagnostic.2 (.inl rfl), (isVisible_iff hlast).2 ⟨hne, hvisible⟩, rfl⟩
    · rw [← hfile] at hfirst hlast
      exact ⟨_, mem_ofDiagnostic.2 (.inr ⟨label, hlabel, text, hfirst, rfl⟩), (isVisible_iff hlast).2 ⟨hne, hvisible⟩,
        hfile⟩

end Mark

namespace Rendering

theorem sectionReference_own (s : Sources) (own : Mark) (marks : List Mark) :
    sectionReference s own marks own.file = reference s own.file own.start := by
  unfold sectionReference
  rw [if_pos rfl]

/-- A place in the diagnostic's file is at the top of a section if something shows in the file and the place is that of
the diagnostic's own mark. -/
theorem mem_references_iff : Position.textIn l.file x ∈ (excerptOf s color d l text).references ↔
    (∃ m ∈ Mark.ofDiagnostic s d l text, m.isVisible s = true ∧ m.file = l.file) ∧
      Position.textIn l.file x = reference s l.file (min l.span.start text.utf8ByteSize) := by
  let own := Mark.place l text.utf8ByteSize d.severity.color
  let marks := (Mark.ofDiagnostic s d l text).filter (·.isVisible s)
  have hown : sectionReference s own marks l.file = reference s l.file (min l.span.start text.utf8ByteSize) :=
    sectionReference_own s own marks
  constructor
  · intro h
    obtain ⟨file, hfile, hreference⟩ := List.mem_map.1 h
    obtain ⟨m, hm, rfl⟩ := List.mem_map.1 (List.mem_eraseDups.1 hfile)
    obtain ⟨hm, hvisible⟩ := List.mem_filter.1 hm
    have hsame : m.file = l.file := by
      unfold sectionReference at hreference
      rw [reference_eq, Position.textIn_inj] at hreference
      exact hreference.1
    rw [← hreference, hsame]
    exact ⟨⟨m, hm, hvisible, hsame⟩, hown⟩
  · rintro ⟨⟨m, hm, hvisible, hsame⟩, hreference⟩
    have hfile : l.file ∈ (marks.map Mark.file).eraseDups :=
      List.mem_eraseDups.2 (List.mem_map.2 ⟨m, List.mem_filter.2 ⟨hm, hvisible⟩, hsame⟩)
    exact List.mem_map.2 ⟨l.file, hfile, hown.trans hreference.symm⟩

/-! ## The place of the diagnostic -/

section Own
variable {before marked rest : String}

/-- The place of a range as its location tells it: behind the characters before it. -/
theorem text_ofRange (file before rest : String) (stop : Nat) :
    (⟨file, .ofRange before.utf8ByteSize stop (before ++ rest)⟩ : Location).text =
      Position.textIn file (some (.behind before.toList)) := by
  have hposition := Position.ofOffset_append before rest
  rw [Location.text_eq]
  · simp only [Span.ofRange, hposition]
  · simp [Span.ofRange, hposition, Position.behind]

/-- A part that is not empty begins before the end of the text. -/
theorem length_lt_length (hmarked : marked ≠ "") (before rest : String) :
    before.length < (before ++ marked ++ rest).length := by
  have hpos : 0 < marked.length := by
    refine Nat.pos_of_ne_zero fun hzero => hmarked ?_
    simpa using hzero
  rw [String.length_append, String.length_append]
  omega

/-- The place that is told is the one at the number of characters before it. -/
theorem text_eq_position? (hfeeds : ∀ c ∈ (before ++ marked ++ rest).toList, Lines.isTerminator c = true → c = '\n')
    (hmarked : marked ≠ "") (file : String) (stop : Nat) :
    (⟨file, .ofRange before.utf8ByteSize stop (before ++ marked ++ rest)⟩ : Location).text =
      Position.textIn file (Lines.position? (before ++ marked ++ rest) before.length) := by
  have htake : (before ++ marked ++ rest).toList.take before.length = before.toList := by
    simp [List.append_assoc, ← String.length_toList]
  rw [Lines.position?_of_lt hfeeds (length_lt_length hmarked before rest), htake, String.append_assoc]
  exact text_ofRange file before (marked ++ rest) stop

/-- The mark of a range that is not empty shows if the range is not further than just behind the last character. -/
theorem lastOffset_place_le_iff (color : Color) (hmarked : marked ≠ "") :
    (Mark.place ⟨file, .ofRange before.utf8ByteSize (before ++ marked).utf8ByteSize (before ++ marked ++ rest)⟩
      (before ++ marked ++ rest).utf8ByteSize color).lastOffset ≤ (before ++ marked ++ rest).length ↔
      (before ++ marked).utf8ByteSize ≤ (before ++ marked ++ rest).length + 1 := by
  have hpos : 0 < marked.utf8ByteSize := by
    refine Nat.pos_of_ne_zero fun hzero => hmarked ?_
    simpa using hzero
  simp only [Mark.place, Mark.lastOffset, Span.ofRange, String.utf8ByteSize_append]
  omega

/-- What the reference of a diagnostic is, for all registered sources, of which one is the diagnostic's file with a text
whose lines end with line feeds only, and for every part of the text, not empty, at which the diagnostic is. A section for
the file shows if that part ends in bytes at most one further than the text has characters, or a label shows there. Its
reference, and no other of the file, is the place of the character that has the number of the first byte. That is the place
that the diagnostic tells if all characters before the part have one byte, and otherwise it is not. So the diagnostic's own
place always shows in a text of which all characters have one byte. -/
theorem shows_own_place_iff (s : Sources) (color : Bool) (d : Diagnostic) (file before marked rest : String)
    (hfiles : s.files.filter (·.1 == file) = [(file, before ++ marked ++ rest)])
    (hfeeds : ∀ c ∈ (before ++ marked ++ rest).toList, Lines.isTerminator c = true → c = '\n')
    (hmarked : marked ≠ "")
    (hlocation : d.location = some
      ⟨file, .ofRange before.utf8ByteSize (before ++ marked).utf8ByteSize (before ++ marked ++ rest)⟩) :
    let source := before ++ marked ++ rest
    let own : Location := ⟨file, .ofRange before.utf8ByteSize (before ++ marked).utf8ByteSize source⟩
    let shows := (before ++ marked).utf8ByteSize ≤ source.length + 1 ∨ ∃ label ∈ d.labels, label.location.file = file ∧
      (Mark.place label.location source.utf8ByteSize .blue).lastOffset ≤ source.length
    ∃ e, render s color d = .excerpt e ∧
      (∀ x, Position.textIn file x ∈ e.references ↔ shows ∧ x = Lines.position? source before.utf8ByteSize) ∧
      (own.text ∈ e.references ↔ shows ∧ before.utf8ByteSize = before.length) ∧
      (source.utf8ByteSize = source.length → own.text ∈ e.references) := by
  intro source own shows
  obtain ⟨hfirst, hlast⟩ := Sources.texts_of_filter hfiles
  have hne : source ≠ "" := by simp [source, hmarked]
  have hrender : render s color d = .excerpt (excerptOf s color d own source) := by
    unfold render
    rw [hlocation, Option.bind_some, hfirst]
    rfl
  have hstart : min own.span.start source.utf8ByteSize = before.utf8ByteSize := by
    simp only [own, source, Span.ofRange, String.utf8ByteSize_append]
    omega
  have hshows : (∃ m ∈ Mark.ofDiagnostic s d own source, m.isVisible s = true ∧ m.file = own.file) ↔ shows := by
    rw [Mark.exists_visible_iff hfirst hlast hne, lastOffset_place_le_iff _ hmarked]
  have hmem : ∀ x, Position.textIn file x ∈ (excerptOf s color d own source).references ↔
      shows ∧ x = Lines.position? source before.utf8ByteSize := by
    intro x
    refine (mem_references_iff (l := own)).trans ?_
    rw [hshows, hstart, reference_eq, hlast, Option.bind_some, Position.textIn_inj]
    exact and_congr_right fun _ => and_iff_right rfl
  have hown : own.text ∈ (excerptOf s color d own source).references ↔
      shows ∧ before.utf8ByteSize = before.length := by
    rw [text_eq_position? hfeeds hmarked, hmem, Lines.position?_length_eq_iff hfeeds (length_lt_length hmarked before rest)]
  refine ⟨_, hrender, hmem, hown, fun hbytes => hown.2 ?_⟩
  -- No part has fewer bytes than characters, so no part has more if all of them together have not.
  have hbefore := Lines.length_le_utf8ByteSize before
  have hpart := Lines.length_le_utf8ByteSize marked
  have hrest := Lines.length_le_utf8ByteSize rest
  simp only [source, shows, String.length_append, String.utf8ByteSize_append] at hbytes ⊢
  exact ⟨.inl (by omega), by omega⟩

/-- Behind a character of two bytes the reference is a column too far. -/
theorem reference_behind_wide_character :
    let s : Sources := ⟨[("app.js", "// é\nobj.x;\n")]⟩
    let own : Location := ⟨"app.js", .ofRange 6 11 "// é\nobj.x;\n"⟩
    own.text = "app.js:2:1" ∧ ∃ e, render s false (.fatal .writeConflict "conflict" own) = .excerpt e ∧
      "app.js:2:2" ∈ e.references ∧ own.text ∉ e.references := by
  intro s own
  obtain ⟨e, hrender, hmem, hown, -⟩ := shows_own_place_iff s false (.fatal .writeConflict "conflict" own) "app.js"
    "// é\n" "obj.x" ";\n" (by decide) (by simp [Lines.isTerminator]) (by decide) (by decide)
  refine ⟨by decide, e, hrender, (hmem (some ⟨2, 2⟩)).2 ⟨.inl (by decide), by decide⟩, fun h => ?_⟩
  exact absurd (hown.1 h).2 (by decide)

end Own

end Rendering

end Independence
