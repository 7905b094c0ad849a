import EditorConfig.Proofs.LetterCase
import EditorConfig.Proofs.Properties.Merging
import EditorConfig.Proofs.Rules
import EditorConfig.Proofs.Resolving.Precedence
/-!
# Values that say nothing

Each key has a few words and numbers that it understands. Whether a rule is set depends on that of
its own value and of no other, with one exception: a tab whose width is not understood is still as
wide as a level in columns. So a section can take back what the sections before it declare, save for
that width.
-/
namespace EditorConfig

/-! ## What is understood -/

/-- A positive number below 2^32 in digits, with a plus sign in front of them or without. -/
def Numeral (text : String) : Prop :=
  ∃ digits, (text.toList = digits ∨ text.toList = '+' :: digits) ∧ digits ≠ [] ∧
    (∀ c ∈ digits, c.isDigit = true) ∧ 0 < Nat.ofDigitChars 10 digits 0 ∧
    Nat.ofDigitChars 10 digits 0 < UInt32.size

namespace Rules

/-- The words that each key understands, in small letters. -/
def vocabulary : List (String × List String) :=
  [("charset", ["utf-8", "utf-8-bom", "utf-16le", "utf-16be", "latin1"]),
    ("end_of_line", ["lf", "crlf", "cr"]),
    ("indent_size", ["tab"]),
    ("indent_style", ["tab", "space"]),
    ("insert_final_newline", ["true", "false"]),
    ("tab_width", []),
    ("trim_trailing_whitespace", ["true", "false"])]

/-- A value is one of the words of its key, in whatever case its letters are, or a number if the key
is one of a size. -/
inductive Understood (key text : String) : Prop where
  | word {words : List String} {word : String} (listed : vocabulary.lookup key = some words)
      (mem : word ∈ words) (same : Text.equalIgnoringCase text word = true)
  | number (sized : key = "indent_size" ∨ key = "tab_width") (numeral : Numeral text)

/-- Values that only take a rule back: `unset`, numbers with a minus sign and numbers that are zero
or too large. -/
inductive Revokes (text : String) : Prop where
  | unset (same : Text.equalIgnoringCase text "unset" = true)
  | negative {rest : List Char} (signed : text.toList = '-' :: rest)
  | beyond {digits : List Char} (signed : text.toList = digits ∨ text.toList = '+' :: digits)
      (digit : ∀ c ∈ digits, c.isDigit = true)
      (bounds : Nat.ofDigitChars 10 digits 0 = 0 ∨ UInt32.size ≤ Nat.ofDigitChars 10 digits 0)

/-- The rule of a key is not set. -/
@[mk_iff]
structure Silent (r : Rules) (key : String) : Prop where
  charset : key = "charset" → r.charset = none
  endOfLine : key = "end_of_line" → r.endOfLine = none
  indentSize : key = "indent_size" → r.indentSize = none
  indentStyle : key = "indent_style" → r.indentStyle = none
  insertFinalNewline : key = "insert_final_newline" → r.insertFinalNewline = none
  tabWidth : key = "tab_width" → r.tabWidth = none
  trimTrailingWhitespace : key = "trim_trailing_whitespace" → r.trimTrailingWhitespace = none

/-- The value of a key does not set its rule. A tab may be as wide as a level in columns. -/
structure SwitchedOff (r : Rules) (key : String) : Prop where
  silent : key ≠ "tab_width" → r.Silent key
  width : key = "tab_width" → ∀ n, r.tabWidth = some n ↔ r.indentSize = some (.columns n)

end Rules

/-! ## How values are read -/

theorem exists_positive?_iff {text : String} : (∃ n, positive? text = some n) ↔ Numeral text := by
  constructor
  · rintro ⟨n, h⟩
    obtain ⟨digits, signed, nonempty, digit, value, nonzero⟩ := positive?_eq_some_iff.mp h
    have positive : 0 < n.toNat := Nat.pos_of_ne_zero fun he => nonzero (UInt32.toNat_inj.mp he)
    exact ⟨digits, signed, nonempty, digit, value ▸ positive, value ▸ n.toNat_lt_size⟩
  · rintro ⟨digits, signed, nonempty, digit, positive, small⟩
    have value := UInt32.toNat_ofNat_of_lt' small
    refine ⟨.ofNat (Nat.ofDigitChars 10 digits 0),
      positive?_eq_some_iff.mpr ⟨digits, signed, nonempty, digit, value.symm, ?_⟩⟩
    intro zero
    rw [zero] at value
    exact absurd value.symm positive.ne'

theorem positive?_eq_none_iff {text : String} : positive? text = none ↔ ¬ Numeral text := by
  rw [← exists_positive?_iff, Option.eq_none_iff_forall_ne_some, not_exists]

theorem choose?_eq_none_iff {α : Type} {write : α → String} {choices : List α} {text : String} :
    choose? write choices text = none ↔
      ∀ word ∈ choices.map write, ¬ Text.equalIgnoringCase text word = true := by
  rw [choose?, List.find?_eq_none, List.forall_mem_map]

theorem IndentSize.ofValue?_eq_none_iff {text : String} : ofValue? text = none ↔
    ¬ Text.equalIgnoringCase text "tab" = true ∧ ¬ Numeral text := by
  rw [← positive?_eq_none_iff, ofValue?]
  split
  · next named => simp [named]
  · next named => simp [named]

namespace Rules
variable {key text value : String} {p : Properties} {declared : Option UInt32}
  {size : Option IndentSize}

theorem understood_iff {words : List String} (listed : vocabulary.lookup key = some words) :
    Understood key text ↔ (∃ word ∈ words, Text.equalIgnoringCase text word = true) ∨
      (key = "indent_size" ∨ key = "tab_width") ∧ Numeral text := by
  constructor
  · rintro (⟨listed', mem, same⟩ | ⟨sized, numeral⟩)
    · obtain rfl := Option.some.inj (listed.symm.trans listed')
      exact .inl ⟨_, mem, same⟩
    · exact .inr ⟨sized, numeral⟩
  · rintro (⟨word, mem, same⟩ | ⟨sized, numeral⟩)
    · exact .word listed mem same
    · exact .number sized numeral

/-- A key understands the words that are read as one of its choices. -/
theorem choose?_eq_none_iff_not_understood {α : Type} {write : α → String} {choices : List α}
    (listed : vocabulary.lookup key = some (choices.map write))
    (unsized : ¬ (key = "indent_size" ∨ key = "tab_width")) :
    choose? write choices text = none ↔ ¬ Understood key text := by
  rw [understood_iff listed, choose?_eq_none_iff]
  simp [unsized]

theorem ofValue?_eq_none_iff_not_understood :
    IndentSize.ofValue? text = none ↔ ¬ Understood "indent_size" text := by
  have listed : vocabulary.lookup "indent_size" = some ["tab"] := by decide
  rw [understood_iff listed, IndentSize.ofValue?_eq_none_iff]
  simp

theorem positive?_eq_none_iff_not_understood :
    positive? text = none ↔ ¬ Understood "tab_width" text := by
  have listed : vocabulary.lookup "tab_width" = some [] := by decide
  rw [understood_iff listed, positive?_eq_none_iff]
  simp

theorem tabWidthFor_eq_none_iff :
    tabWidthFor declared size = none ↔ declared = none ∧ ∀ n, size ≠ some (.columns n) := by
  unfold tabWidthFor
  split
  · simp
  · next other => simpa using fun _ => other

theorem tabWidthFor_none_eq_some_iff {n : UInt32} :
    tabWidthFor none size = some n ↔ size = some (.columns n) := by
  unfold tabWidthFor
  split
  · simp
  · next other => exact iff_of_false nofun (other n)

/-- A rule that is read from the value of its key alone is not set if no value is read. -/
theorem bind_eq_none_iff_not_understood {α : Type} {read : String → Option α}
    (reads : ∀ text, read text = none ↔ ¬ Understood key text) :
    (p.get? key).bind read = none ↔ ∀ value, p.get? key = some value → ¬ Understood key value := by
  rw [Option.bind_eq_none_iff]
  simp only [reads]

theorem choice_eq_none_iff {α : Type} {write : α → String} {choices : List α}
    (listed : vocabulary.lookup key = some (choices.map write))
    (unsized : ¬ (key = "indent_size" ∨ key = "tab_width")) :
    (p.get? key).bind (choose? write choices) = none ↔
      ∀ value, p.get? key = some value → ¬ Understood key value :=
  bind_eq_none_iff_not_understood fun _ => choose?_eq_none_iff_not_understood listed unsized

/-- The rule of a key is set by what its own value says and, if it is the tab width, by a level in
columns. -/
theorem silent_ofProperties_iff (known : key ∈ keys) : (ofProperties p).Silent key ↔
    (∀ value, p.get? key = some value → ¬ Understood key value) ∧
      (key = "tab_width" → ∀ n, (ofProperties p).indentSize ≠ some (.columns n)) := by
  simp only [keys, List.mem_cons, List.not_mem_nil, or_false] at known
  rcases known with rfl | rfl | rfl | rfl | rfl | rfl | rfl
  all_goals
    simp only [silent_iff, String.reduceEq, false_imp_iff, true_imp_iff, true_and, and_true]
  · exact choice_eq_none_iff (by decide) (by decide)
  · exact choice_eq_none_iff (by decide) (by decide)
  · exact bind_eq_none_iff_not_understood fun _ => ofValue?_eq_none_iff_not_understood
  · exact choice_eq_none_iff (by decide) (by decide)
  · exact choice_eq_none_iff (by decide) (by decide)
  · -- The only rule that another key has a part in.
    rw [← bind_eq_none_iff_not_understood fun _ => positive?_eq_none_iff_not_understood]
    exact tabWidthFor_eq_none_iff
  · exact choice_eq_none_iff (by decide) (by decide)

/-! ## Values that no key understands -/

/-- What holds of all words of the table holds of the words of a key. -/
theorem of_listed {q : String → Bool} (all : vocabulary.all (fun e => e.2.all q) = true)
    {words : List String} (listed : vocabulary.lookup key = some words) {word : String}
    (mem : word ∈ words) : q word = true := by
  have inTable := List.all_eq_true.mp all (key, words) (Properties.mem_of_lookup listed)
  exact List.all_eq_true.mp inTable word mem

/-- A word begins with a letter. -/
theorem letter_of_word {words : List String} (listed : vocabulary.lookup key = some words)
    {word : String} (mem : word ∈ words) (same : Text.equalIgnoringCase text word = true) :
    ∃ c rest, text.toList = c :: rest ∧ c.toLower.isAlpha = true := by
  have letter := of_listed (q := fun w => (Text.asciiLower w.toList).head?.any Char.isAlpha)
    (by decide) listed mem
  rw [← beq_iff_eq.mp same] at letter
  cases begins : text.toList with
  | nil => simp [begins, Text.asciiLower] at letter
  | cons c rest => exact ⟨c, rest, rfl, by simpa [begins, Text.asciiLower] using letter⟩

theorem isAlpha_toLower_of_isDigit {c : Char} (h : c.isDigit = true) :
    c.toLower.isAlpha = false := by
  simpa using of_isDigit (p := fun c => !c.toLower.isAlpha) (by decide) h

/-- A number begins with a digit or with a plus sign. -/
theorem head_of_numeral (h : Numeral text) :
    ∃ c rest, text.toList = c :: rest ∧ c.toLower.isAlpha = false ∧ c ≠ '-' := by
  obtain ⟨digits, signed, nonempty, digit, -⟩ := h
  rcases signed with plain | plus
  · obtain ⟨c, rest, rfl⟩ := List.exists_cons_of_ne_nil nonempty
    have digit := digit c List.mem_cons_self
    refine ⟨c, rest, plain, isAlpha_toLower_of_isDigit digit, ?_⟩
    rintro rfl
    cases digit
  · exact ⟨'+', digits, plus, by decide, by decide⟩

/-- The digits of a number are told by its text. -/
theorem digits_unique {s digits digits' : List Char} (signed : s = digits ∨ s = '+' :: digits)
    (signed' : s = digits' ∨ s = '+' :: digits') (digit : ∀ c ∈ digits, c.isDigit = true)
    (numeric : ∀ c ∈ digits', c.isDigit = true) : digits = digits' := by
  have plus : ¬ '+'.isDigit = true := by decide
  rcases signed with rfl | rfl <;> rcases signed' with same | same
  · exact same
  · exact absurd (digit '+' (same ▸ List.mem_cons_self)) plus
  · exact absurd (numeric '+' (same ▸ List.mem_cons_self)) plus
  · exact (List.cons.inj same).2

theorem not_understood_of_revokes (h : Revokes text) : ¬ Understood key text := by
  rintro (⟨listed, mem, same⟩ | ⟨-, numeral⟩)
  · obtain ⟨c, rest, begins, letter⟩ := letter_of_word listed mem same
    cases h with
    | unset unset =>
      have other := of_listed (q := fun w => !Text.equalIgnoringCase w "unset") (by decide)
        listed mem
      rw [Text.equalIgnoringCase, ← beq_iff_eq.mp same, beq_iff_eq.mp unset] at other
      simp at other
    | negative signed =>
      obtain ⟨rfl, -⟩ := List.cons.inj (begins.symm.trans signed)
      cases letter
    | beyond signed digit _ =>
      rcases signed with plain | plus
      · have digit := digit c (plain ▸ begins ▸ List.mem_cons_self)
        simp [isAlpha_toLower_of_isDigit digit] at letter
      · obtain ⟨rfl, -⟩ := List.cons.inj (begins.symm.trans plus)
        cases letter
  · obtain ⟨c, rest, begins, unlettered, unsigned⟩ := head_of_numeral numeral
    cases h with
    | unset unset =>
      have whole : Text.asciiLower text.toList = "unset".toList := beq_iff_eq.mp unset
      rw [begins] at whole
      have first : c.toLower = 'u' := (List.cons.inj whole).1
      rw [first] at unlettered
      cases unlettered
    | negative signed => exact unsigned (List.cons.inj (begins.symm.trans signed)).1
    | beyond signed digit bounds =>
      obtain ⟨digits, signed', -, digit', positive, small⟩ := numeral
      obtain rfl := digits_unique signed signed' digit digit'
      omega

/-! ## Switching a rule off -/

theorem switchedOff_of_foreign (known : key ∈ keys) (declared : p.get? key = some value)
    (foreign : ¬ Understood key value) : (ofProperties p).SwitchedOff key := by
  refine ⟨fun other => ?_, ?_⟩
  · rw [silent_ofProperties_iff known]
    refine ⟨fun value' declared' => ?_, fun he => absurd he other⟩
    obtain rfl := Option.some.inj (declared.symm.trans declared')
    exact foreign
  · rintro rfl n
    have unread : (p.get? "tab_width").bind positive? = none := by
      rw [declared]
      exact positive?_eq_none_iff_not_understood.mpr foreign
    have width : (ofProperties p).tabWidth = tabWidthFor none (ofProperties p).indentSize :=
      congrArg (tabWidthFor · _) unread
    rw [width, tabWidthFor_none_eq_some_iff]

/-- The value of a key sets its rule if it is understood and switches the rule off if not, whatever
else is declared and whatever sections in front of its own declare. None of the values that take a
rule back is understood. -/
theorem rule_of_declared_value {key : String} (known : key ∈ keys) (value : String) :
    (∀ p : Properties, p.get? key = some value →
      (Understood key value → ¬ (ofProperties p).Silent key) ∧
      (¬ Understood key value → (ofProperties p).SwitchedOff key)) ∧
    (∀ before s after, s.properties.get? key = some value →
      (∀ s' ∈ after, s'.properties.get? key = none) → ¬ Understood key value →
      (ofProperties (.ofSections (before ++ s :: after))).SwitchedOff key) ∧
    (Revokes value → ¬ Understood key value) := by
  refine ⟨fun p declared => ⟨fun understood silent => ?_, switchedOff_of_foreign known declared⟩,
    fun before s after declared nearest => ?_, not_understood_of_revokes⟩
  · exact ((silent_ofProperties_iff known).mp silent).1 value declared understood
  · exact switchedOff_of_foreign known
      (Properties.get?_ofSections_eq_some_iff.mpr ⟨before, s, after, rfl, declared, nearest⟩)

theorem rule_of_declared_value_unset :
    let far : Section := ⟨"*", .ofList [("indent_style", "tab"), ("indent_size", "4")]⟩
    let near : Section := ⟨"*.md", .ofList [("indent_style", "UnSet"), ("indent_size", "2")]⟩
    "indent_style" ∈ keys ∧ ¬ Understood "indent_style" "UnSet" ∧
      ¬ (ofProperties far.properties).Silent "indent_style" ∧
      (ofProperties (.ofSections ([far] ++ near :: []))).Silent "indent_style" := by
  intro far near
  have known : "indent_style" ∈ keys := by decide
  have understood : Understood "indent_style" "tab" :=
    .word (by decide : vocabulary.lookup "indent_style" = some ["tab", "space"])
      List.mem_cons_self (by decide)
  have set := ((rule_of_declared_value known "tab").1 far.properties (by decide)).1 understood
  obtain ⟨-, nearer, revoked⟩ := rule_of_declared_value known "UnSet"
  have foreign := revoked (.unset (by decide))
  exact ⟨known, foreign, set,
    (nearer [far] near [] (by decide) nofun foreign).silent (by decide)⟩

/-- A tab is as wide as a level in columns although its width is declared to be unset. -/
theorem tabWidth_of_unset :
    let p := Properties.ofList [("indent_size", "4"), ("tab_width", "unset")]
    p.get? "tab_width" = some "unset" ∧ ¬ Understood "tab_width" "unset" ∧
      (ofProperties p).tabWidth = some 4 :=
  ⟨by decide, not_understood_of_revokes (.unset (by decide)), by decide⟩

end Rules
end EditorConfig
