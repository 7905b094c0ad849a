import EditorConfig.Proofs.Document.Blocks
import Mathlib.Logic.Relation
/-!
# Layout

How a text is laid out does not matter: its lines may end in CR LF or LF, blank characters may stand
at both ends of a line and around the equals sign of a property, and the last line may be ended or
not. Each of these is one small change of the text. A change that stays within a line leaves what
the line says, and a text with any number of changes, also with a byte order mark in front of it in
the end, is read as before.
-/
namespace EditorConfig

/-- Blank characters that do not end a line. -/
def Text.Spaces (s : List Char) : Prop := ∀ c ∈ s, isBlank c = true ∧ c ≠ '\n'

-- Found character by character, also where a library lists all characters.
instance (s : List Char) : Decidable (Text.Spaces s) := List.decidableBAll _ s

namespace Line

/-- A line that begins with a comment sign. -/
def Comments (s : List Char) : Prop :=
  ∃ t, Text.Trims s t ∧ (t.head? = some '#' ∨ t.head? = some ';')

/-- One change of the blank characters of a line. -/
inductive Respaced : List Char → List Char → Prop
  | front (line : List Char) {blanks : List Char} (spaces : Text.Spaces blanks) :
      Respaced line (blanks ++ line)
  | back (line : List Char) {blanks : List Char} (spaces : Text.Spaces blanks) :
      Respaced line (line ++ blanks)
  | sides {left right before after : List Char} (first : '=' ∉ left)
      (loud : ¬ Comments (left ++ '=' :: right)) (plain : ¬ Opens (left ++ '=' :: right))
      (spacesBefore : Text.Spaces before) (spacesAfter : Text.Spaces after) :
      Respaced (left ++ '=' :: right) (left ++ before ++ '=' :: (after ++ right))

end Line

namespace Document

/-- One change of the layout of a text. -/
inductive Relaid : List Char → List Char → Prop
  /-- A line, from its beginning to its end, has other blank characters. -/
  | line {above line line' below : List Char} (start : above = [] ∨ EndsLine above)
      (stop : below = [] ∨ below.head? = some '\n') (inLine : '\n' ∉ line)
      (respaced : Line.Respaced line line') :
      Relaid (above ++ (line ++ below)) (above ++ (line' ++ below))
  /-- A line ends in CR LF. -/
  | carriageReturn (above below : List Char) :
      Relaid (above ++ '\n' :: below) (above ++ '\r' :: '\n' :: below)
  /-- The last line is ended. -/
  | ended (text : List Char) : Relaid text (text ++ ['\n'])
  /-- The last line is no longer ended. -/
  | unended (text : List Char) {ending : List Char} (ends : ending ∈ [['\n'], ['\r', '\n']]) :
      Relaid (text ++ ending) text

/-- The document that the lines of a text make up. -/
def saidIn (s : List Char) : Document := ofLines ((Text.lines s).map Line.ofText)

end Document

namespace Text
variable {s t front back : List Char} {c : Char}

/-! ## Blank characters around a text -/

theorem trim_append (hback : ∀ c ∈ back, isBlank c = true) : trim (s ++ back) = trim s := by
  have trimmed := trims_trim s
  obtain ⟨inFront, inBack, whole, blankFront, blankBack⟩ := trimmed.cut
  refine trims_iff.mp ⟨⟨inFront, inBack ++ back, ?_, blankFront, ?_⟩, trimmed.starts, trimmed.ends⟩
  · conv => lhs; rw [whole]
    simp
  · exact List.forall_mem_append.mpr ⟨blankBack, hback⟩

theorem trim_prepend (hfront : ∀ c ∈ front, isBlank c = true) : trim (front ++ s) = trim s := by
  rw [trim, List.dropWhile_append_of_pos hfront, trim]

theorem trim_dropWhile (s : List Char) : trim (s.dropWhile isBlank) = trim s := by
  rw [trim, List.dropWhile_idempotent, trim]

theorem trim_trimEnd (s : List Char) : trim (trimEnd s) = trim s := by
  have whole : s.rdropWhile isBlank ++ s.rtakeWhile isBlank = s :=
    List.rdropWhile_append_rtakeWhile
  have blank : ∀ c ∈ s.rtakeWhile isBlank, isBlank c = true := fun c hc =>
    List.mem_rtakeWhile_imp hc
  rw [trimEnd_eq_rdropWhile, ← trim_append blank, whole]

/-! ## Blank characters around a separator -/

theorem dropWhile_append_cons (visible : isBlank c = false) (s t : List Char) :
    (s ++ c :: t).dropWhile isBlank = s.dropWhile isBlank ++ c :: t := by
  induction s with
  | nil => simp [visible]
  | cons d s ih => by_cases hd : isBlank d = true <;> simp [hd, ih]

theorem trimEnd_append_cons (visible : isBlank c = false) (s t : List Char) :
    trimEnd (s ++ c :: t) = s ++ c :: trimEnd t := by
  induction s with
  | nil =>
    rw [List.nil_append, trimEnd]
    cases trimEnd t <;> simp [visible]
  | cons d s ih =>
    rw [List.cons_append, trimEnd, ih]
    cases s <;> rfl

/-- A separator is not blank, so the blank characters at the ends are those on its far sides. -/
theorem trim_append_cons (visible : isBlank c = false) (s t : List Char) :
    trim (s ++ c :: t) = s.dropWhile isBlank ++ c :: trimEnd t := by
  rw [trim, dropWhile_append_cons visible, trimEnd_append_cons visible]

/-- What the text begins with does not depend on the blank characters around the separator. -/
theorem head?_trim_append_cons (visible : isBlank c = false) (s t t' : List Char)
    (hback : ∀ c ∈ back, isBlank c = true) :
    (trim (s ++ back ++ c :: t')).head? = (trim (s ++ c :: t)).head? := by
  rw [trim_append_cons visible, trim_append_cons visible, List.dropWhile_append]
  cases h : s.dropWhile isBlank with
  | nil => simp [List.dropWhile_eq_nil_iff.mpr hback]
  | cons d rest => simp

end Text

namespace Line
open Text (Spaces)
variable {line line' left right : List Char}

/-! ## One line -/

theorem ofSides_congr {left' right' : List Char} (hleft : Text.trim left' = Text.trim left)
    (hright : Text.trim right' = Text.trim right) : ofSides left' right' = ofSides left right := by
  simp only [ofSides, hleft, hright]

theorem comments_iff : Comments line ↔
    (Text.trim line).head? = some '#' ∨ (Text.trim line).head? = some ';' := by
  simp [Comments, Text.trims_iff]

/-- A line with an equals sign that is no comment and no header is read by its two sides. -/
theorem ofText_sides (first : '=' ∉ left) (loud : ¬ Comments (left ++ '=' :: right))
    (plain : ¬ Opens (left ++ '=' :: right)) :
    ofText (left ++ '=' :: right) = ofSides left right := by
  rw [comments_iff] at loud
  rw [opens_iff] at plain
  rw [Text.trim_append_cons (by decide)] at loud plain
  have loudTrimmed : ¬ Quiet (left.dropWhile Text.isBlank ++ '=' :: Text.trimEnd right) := by
    rintro (empty | sign)
    · simp at empty
    · exact loud sign
  have cut : Text.cut? '=' (left.dropWhile Text.isBlank ++ '=' :: Text.trimEnd right) =
      some (left.dropWhile Text.isBlank, Text.trimEnd right) :=
    Text.cut?_eq_some_iff.mpr ⟨rfl, fun h => first ((List.dropWhile_suffix _).subset h)⟩
  rw [ofText, Text.trim_append_cons (by decide), ofTrimmed_loud loudTrimmed plain, cut]
  exact ofSides_congr (Text.trim_dropWhile left) (Text.trim_trimEnd right)

/-- A line with other blank characters says the same. -/
theorem ofText_respaced (h : Respaced line line') : ofText line' = ofText line := by
  cases h with
  | front line spaces => rw [ofText, Text.trim_prepend fun c hc => (spaces c hc).1, ofText]
  | back line spaces => rw [ofText, Text.trim_append fun c hc => (spaces c hc).1, ofText]
  | @sides left right before after first loud plain spacesBefore spacesAfter =>
    have blankBefore : ∀ c ∈ before, Text.isBlank c = true := fun c hc => (spacesBefore c hc).1
    have head := Text.head?_trim_append_cons (c := '=') (by decide) left right (after ++ right)
      blankBefore
    have firstToo : '=' ∉ left ++ before := by
      rw [List.mem_append, not_or]
      refine ⟨first, fun h => ?_⟩
      have := blankBefore '=' h
      revert this
      decide
    rw [ofText_sides first loud plain, ofText_sides firstToo]
    · exact ofSides_congr (Text.trim_append blankBefore)
        (Text.trim_prepend fun c hc => (spacesAfter c hc).1)
    · rwa [comments_iff, head, ← comments_iff]
    · rwa [opens_iff, Heading, head, ← Heading, ← opens_iff]

/-- Nothing but blank characters is added, none of which ends the line. -/
theorem mem_of_respaced (h : Respaced line line') {c : Char} (hc : c ∈ line') :
    c ∈ line ∨ (Text.isBlank c = true ∧ c ≠ '\n') := by
  cases h with
  | front line spaces => exact (List.mem_append.mp hc).symm.imp_right (spaces c)
  | back line spaces => exact (List.mem_append.mp hc).imp_right (spaces c)
  | sides _ _ _ spacesBefore spacesAfter =>
    simp only [List.mem_append, List.mem_cons] at hc ⊢
    have before := spacesBefore c
    have after := spacesAfter c
    tauto

/-- A text does not come to begin with a character that is not blank. -/
theorem head?_of_respaced (h : Respaced line line') {c : Char} (visible : Text.isBlank c = false)
    (below : List Char) (hc : (line' ++ below).head? = some c) :
    (line ++ below).head? = some c := by
  have starts : ∀ {blanks s : List Char}, Spaces blanks → (blanks ++ s).head? = some c →
      s.head? = some c := by
    intro blanks s spaces hs
    cases blanks with
    | nil => exact hs
    | cons d blanks =>
      obtain rfl : d = c := by simpa using hs
      exact absurd (spaces d List.mem_cons_self).1 (by simp [visible])
  cases h with
  | front line spaces =>
    rw [List.append_assoc] at hc
    exact starts spaces hc
  | back line spaces =>
    cases line with
    | nil => exact starts spaces hc
    | cons d line => exact hc
  | @sides left right before after _ _ _ spacesBefore _ =>
    cases left with
    | nil =>
      rw [List.nil_append, List.append_assoc] at hc
      have equals : ('=' :: (after ++ right) ++ below).head? = some c := starts spacesBefore hc
      exact equals
    | cons d left => exact hc

end Line

namespace Document
variable {s s' above below line : List Char}

/-! ## One change -/

/-- A line that stands between line feeds is one of the lines of the text. -/
theorem exists_lines_around (start : above = [] ∨ EndsLine above)
    (stop : below = [] ∨ below.head? = some '\n') :
    ∃ front back, ∀ line, '\n' ∉ line →
      Text.lines (above ++ (line ++ below)) = front ++ line :: back := by
  obtain ⟨front, hfront⟩ := exists_lines_append start
  rcases stop with rfl | feed
  · refine ⟨front, [], fun line inLine => ?_⟩
    rw [hfront, List.append_nil, Text.lines, List.splitOn_eq_singleton inLine]
  · obtain ⟨rest, rfl⟩ := List.head?_eq_some_iff.mp feed
    refine ⟨front, Text.lines rest, fun line inLine => ?_⟩
    rw [hfront, Text.lines, List.splitOn_append_cons_self, List.splitOn_eq_singleton inLine]
    rfl

theorem saidIn_line {line' : List Char} (start : above = [] ∨ EndsLine above)
    (stop : below = [] ∨ below.head? = some '\n') (inLine : '\n' ∉ line)
    (respaced : Line.Respaced line line') :
    saidIn (above ++ (line' ++ below)) = saidIn (above ++ (line ++ below)) := by
  obtain ⟨front, back, cut⟩ := exists_lines_around start stop
  have inLine' : '\n' ∉ line' := fun feed =>
    (Line.mem_of_respaced respaced feed).elim inLine fun h => h.2 rfl
  simp only [saidIn, cut line inLine, cut line' inLine', List.map_append, List.map_cons,
    Line.ofText_respaced respaced]

/-- The last line of a text begins behind its last line feed. -/
theorem exists_last_line (s : List Char) :
    ∃ front last, s = front ++ last ∧ (front = [] ∨ EndsLine front) ∧ '\n' ∉ last := by
  induction s using List.reverseRecOn with
  | nil => exact ⟨[], [], rfl, .inl rfl, List.not_mem_nil⟩
  | append_singleton s c ih =>
    by_cases feed : c = '\n'
    · exact ⟨s ++ [c], [], by simp, .inr ⟨s, by rw [feed]⟩, List.not_mem_nil⟩
    · obtain ⟨front, last, rfl, start, inLine⟩ := ih
      exact ⟨front, last ++ [c], by simp, start, by simp [inLine, Ne.symm feed]⟩

/-- To end a line in CR LF is to put a blank character at its end. -/
theorem saidIn_carriageReturn (above below : List Char) :
    saidIn (above ++ '\r' :: '\n' :: below) = saidIn (above ++ '\n' :: below) := by
  obtain ⟨front, last, rfl, start, inLine⟩ := exists_last_line above
  have spaces : Text.Spaces ['\r'] := by decide
  have stop : ('\n' :: below).head? = some '\n' := rfl
  simpa using saidIn_line start (.inr stop) inLine (.back last spaces)

theorem saidIn_ended (s : List Char) : saidIn (s ++ ['\n']) = saidIn s := by
  have cut : Text.lines (s ++ ['\n']) = Text.lines s ++ [[]] :=
    List.splitOn_append_cons_self s []
  rw [saidIn, cut, List.map_append, ofLines, Reading.nextAll_append]
  rfl

theorem saidIn_ending (s : List Char) {ending : List Char}
    (h : ending ∈ [['\n'], ['\r', '\n']]) : saidIn (s ++ ending) = saidIn s := by
  rcases List.mem_pair.mp h with rfl | rfl
  · exact saidIn_ended s
  · exact (saidIn_carriageReturn s []).trans (saidIn_ended s)

theorem saidIn_relaid (h : Relaid s s') : saidIn s' = saidIn s := by
  cases h with
  | line start stop inLine respaced => exact saidIn_line start stop inLine respaced
  | carriageReturn above below => exact saidIn_carriageReturn above below
  | ended => exact saidIn_ended s
  | unended _ ends => exact (saidIn_ending s' ends).symm

/-- A change adds no character but blank ones. -/
theorem mem_of_relaid (h : Relaid s s') {c : Char} (visible : Text.isBlank c = false)
    (hc : c ∈ s') : c ∈ s := by
  cases h with
  | line start stop inLine respaced =>
    have added : ¬ (Text.isBlank c = true ∧ c ≠ '\n') := by simp [visible]
    have inner := fun h => (Line.mem_of_respaced respaced (c := c) h).resolve_right added
    simp only [List.mem_append] at hc ⊢
    tauto
  | carriageReturn above below =>
    have other : c ≠ '\r' := by
      rintro rfl
      cases visible
    simpa [other] using hc
  | ended =>
    have other : c ≠ '\n' := by
      rintro rfl
      cases visible
    simpa [other] using hc
  | unended => exact List.mem_append_left _ hc

/-- A change brings no character but a blank one to the beginning. -/
theorem head?_of_relaid (h : Relaid s s') {c : Char} (visible : Text.isBlank c = false)
    (hc : s'.head? = some c) : s.head? = some c := by
  cases h with
  | @line above line line' below start stop inLine respaced =>
    cases above with
    | nil => exact Line.head?_of_respaced respaced visible below hc
    | cons d above => exact hc
  | carriageReturn above below =>
    cases above with
    | nil =>
      obtain rfl : '\r' = c := by simpa using hc
      cases visible
    | cons d above => exact hc
  | ended =>
    cases s with
    | nil =>
      obtain rfl : '\n' = c := by simpa using hc
      cases visible
    | cons d s => exact hc
  | unended =>
    obtain ⟨rest, rfl⟩ := List.head?_eq_some_iff.mp hc
    rfl

/-! ## Any number of changes -/

/-- What a text that is laid out anew keeps. -/
structure Keeps (s s' : List Char) : Prop where
  said : saidIn s' = saidIn s
  inside : ∀ c, Text.isBlank c = false → c ∈ s' → c ∈ s
  first : ∀ c, Text.isBlank c = false → s'.head? = some c → s.head? = some c

theorem keeps_of_relaid (h : Relation.ReflTransGen Relaid s s') : Keeps s s' := by
  induction h with
  | refl => exact ⟨rfl, fun _ _ h => h, fun _ _ h => h⟩
  | tail _ step ih =>
    exact ⟨(saidIn_relaid step).trans ih.said,
      fun c visible hc => ih.inside c visible (mem_of_relaid step visible hc),
      fun c visible hc => ih.first c visible (head?_of_relaid step visible hc)⟩

/-- A text without NUL characters and without a byte order mark reads, and reads the same after any
number of changes of its layout, also with a byte order mark in front of what they give. -/
theorem layout_transparent {content content' : String} {text : List Char}
    (noNul : '\x00' ∉ content.toList) (unmarked : content.toList.head? ≠ some '\uFEFF')
    (relaid : Relation.ReflTransGen Relaid content.toList text)
    (marked : content'.toList = text ∨ content'.toList = '\uFEFF' :: text) :
    (∃ d, parse content = .ok d) ∧ parse content' = parse content := by
  have keeps := keeps_of_relaid relaid
  have reads : Text.Unmarked content.toList content.toList := .inr ⟨rfl, unmarked⟩
  have reads' : Text.Unmarked content'.toList text := by
    rcases marked with plain | marked
    · exact .inr ⟨plain, fun h => unmarked (keeps.first _ (by decide) (plain ▸ h))⟩
    · exact .inl marked
  have noNul' : '\x00' ∉ content'.toList := by
    rw [nul_mem_of_unmarked reads']
    exact fun h => noNul (keeps.inside _ (by decide) h)
  refine ⟨⟨_, parse_eq_ofLines noNul reads⟩, ?_⟩
  rw [parse_eq_ofLines noNul reads, parse_eq_ofLines noNul' reads']
  exact congrArg Except.ok keeps.said

/-- An indented line that comes to end in CR LF, a comment with an equals sign, a property with
blank characters around its own, and an ended last line. -/
theorem layout_transparent_spread :
    let content := "root=true\n;a=b\n[*]\nk=v"
    let content' := "\uFEFF\u2003root=true\r\n;a=b\n[*]\nk\u00A0=\tv\n"
    parse content = .ok ⟨true, [⟨"*", .ofList [("k", "v")]⟩], []⟩ ∧
      parse content' = parse content := by
  intro content content'
  have written : ∀ {s s' t t'}, Relaid s s' → s = t → s' = t' → Relaid t t' :=
    fun step hs hs' => hs ▸ hs' ▸ step
  have front : Relaid content.toList "\u2003root=true\n;a=b\n[*]\nk=v".toList := by
    have changed : Line.Respaced "root=true".toList "\u2003root=true".toList :=
      .front "root=true".toList (by decide : Text.Spaces ['\u2003'])
    have next : ("\n;a=b\n[*]\nk=v".toList).head? = some '\n' := by decide
    exact written (.line (.inl rfl) (.inr next) (by decide) changed) (by decide) (by decide)
  have feed : Relaid "\u2003root=true\n;a=b\n[*]\nk=v".toList
      "\u2003root=true\r\n;a=b\n[*]\nk=v".toList :=
    written (.carriageReturn "\u2003root=true".toList ";a=b\n[*]\nk=v".toList)
      (by decide) (by decide)
  have sides : Relaid "\u2003root=true\r\n;a=b\n[*]\nk=v".toList
      "\u2003root=true\r\n;a=b\n[*]\nk\u00A0=\tv".toList := by
    have ended : EndsLine "\u2003root=true\r\n;a=b\n[*]\n".toList :=
      ⟨"\u2003root=true\r\n;a=b\n[*]".toList, by decide⟩
    have loud : ¬ Line.Comments (['k'] ++ '=' :: ['v']) := by
      rw [Line.comments_iff]
      decide
    have plain : ¬ Line.Opens (['k'] ++ '=' :: ['v']) := by
      rw [Line.opens_iff, Line.Heading]
      decide
    have changed := Line.Respaced.sides (by decide) loud plain
      (by decide : Text.Spaces ['\u00A0']) (by decide : Text.Spaces ['\t'])
    exact written (.line (.inr ended) (.inl rfl) (by decide) changed) (by decide) (by decide)
  have relaid : Relation.ReflTransGen Relaid content.toList
      ("\u2003root=true\r\n;a=b\n[*]\nk\u00A0=\tv".toList ++ ['\n']) :=
    (((Relation.ReflTransGen.single front).tail feed).tail sides).tail (.ended _)
  exact ⟨by decide +kernel,
    (layout_transparent (by decide) (by decide) relaid (.inr (by decide))).2⟩

end Document

end EditorConfig
