import EditorConfig.Proofs.LetterCase
import EditorConfig.Proofs.Properties
import EditorConfig.Rules
/-!
# What rules say

Every value that rules write is read back as the same rule, save for a size or a width of zero,
which no value declares. Together with the tab width that a size in columns brings along this tells
which rules come from properties: exactly those that their own entries give back.
-/
namespace EditorConfig

/-! ## Values -/

/-- A positive whole number is written in digits, with a plus sign in front of them or without. -/
theorem positive?_eq_some_iff {text : String} {n : UInt32} : positive? text = some n ↔
    ∃ digits, (text.toList = digits ∨ text.toList = '+' :: digits) ∧ digits ≠ [] ∧
      (∀ c ∈ digits, c.isDigit = true) ∧ Nat.ofDigitChars 10 digits 0 = n.toNat ∧ n ≠ 0 := by
  have read : ∀ digits : List Char,
      (if (digits.isEmpty || !digits.all Char.isDigit) = true then none
        else if 0 < Nat.ofDigitChars 10 digits 0 ∧ Nat.ofDigitChars 10 digits 0 < UInt32.size then
          some (UInt32.ofNat (Nat.ofDigitChars 10 digits 0)) else none) = some n ↔
        digits ≠ [] ∧ (∀ c ∈ digits, c.isDigit = true) ∧
          Nat.ofDigitChars 10 digits 0 = n.toNat ∧ n ≠ 0 := by
    intro digits
    have zero : n = 0 ↔ n.toNat = 0 := UInt32.toNat_inj.symm
    have small := n.toNat_lt_size
    split
    · next h =>
      simp only [Bool.or_eq_true, List.isEmpty_iff, Bool.not_eq_true', List.all_eq_false] at h
      grind
    · next h =>
      simp only [Bool.or_eq_true, List.isEmpty_iff, Bool.not_eq_true', List.all_eq_false] at h
      split
      · next bounds =>
        have value : UInt32.ofNat (Nat.ofDigitChars 10 digits 0) = n ↔
            Nat.ofDigitChars 10 digits 0 = n.toNat := by
          rw [← UInt32.toNat_inj, UInt32.toNat_ofNat_of_lt' bounds.2]
        rw [Option.some_inj, value]
        grind
      · next bounds => grind
  have plus : ¬ '+'.isDigit = true := by decide
  unfold positive?
  dsimp only
  split
  · next ds hs =>
    rw [read]
    constructor
    · exact fun h => ⟨ds, .inr hs, h⟩
    · rintro ⟨digits, signed | signed, h⟩
      · exact absurd (h.2.1 '+' (signed ▸ hs ▸ List.mem_cons_self)) plus
      · obtain rfl : ds = digits := (List.cons.inj (hs.symm.trans signed)).2
        exact h
  · next hs =>
    rw [read]
    constructor
    · exact fun h => ⟨text.toList, .inl rfl, h⟩
    · rintro ⟨digits, rfl | signed, h⟩
      · exact h
      · exact (hs digits signed).elim

theorem toList_decimal (n : Nat) : (toString n).toList = Nat.toDigits 10 n := by
  rw [Nat.toString_eq_repr, Nat.toList_repr]

theorem isDigit_of_mem_decimal {n : Nat} {c : Char} (h : c ∈ (toString n).toList) :
    c.isDigit = true := by
  rw [toList_decimal] at h
  exact Nat.isDigit_of_mem_toDigits (by decide) (by decide) h

/-- What holds of the ten digits holds of a character that is a digit. -/
theorem of_isDigit {p : Char → Bool} (h : "0123456789".toList.all p = true) {c : Char}
    (hc : c.isDigit = true) : p c = true := by
  have all : ∀ n < 10, Char.ofNat (48 + n) ∈ "0123456789".toList := by decide
  simp only [Char.isDigit, Bool.and_eq_true, decide_eq_true_eq] at hc
  have low : 48 ≤ c.toNat := UInt32.le_iff_toNat_le.mp hc.1
  have high : c.toNat ≤ 57 := UInt32.le_iff_toNat_le.mp hc.2
  have there := all (c.toNat - 48) (by omega)
  rw [Nat.add_sub_cancel' low, Char.ofNat_toNat] at there
  exact List.all_eq_true.mp h c there

/-- Digits are read as the number that they write. -/
theorem positive?_decimal {n : UInt32} (h : n ≠ 0) : positive? (toString n.toNat) = some n :=
  positive?_eq_some_iff.mpr ⟨(toString n.toNat).toList, .inl rfl,
    by simp [Nat.toDigits_ne_nil], fun _ => isDigit_of_mem_decimal,
    by rw [toList_decimal, Nat.ofDigitChars_ten_toDigits], h⟩

theorem positive?_ne_zero {text : String} {n : UInt32} (h : positive? text = some n) : n ≠ 0 := by
  obtain ⟨_, -, -, -, -, positive⟩ := positive?_eq_some_iff.mp h
  exact positive

theorem choose?_charset (a : Charset) :
    choose? Charset.value [.utf8, .utf8Bom, .utf16le, .utf16be, .latin1] a.value = some a := by
  cases a <;> decide

theorem choose?_endOfLine (a : EndOfLine) :
    choose? EndOfLine.value [.lf, .crlf, .cr] a.value = some a := by
  cases a <;> decide

theorem choose?_indentStyle (a : IndentStyle) :
    choose? IndentStyle.value [.tab, .space] a.value = some a := by
  cases a <;> decide

theorem choose?_switch (on : Bool) :
    choose? switchValue [true, false] (switchValue on) = some on := by
  cases on <;> decide

namespace IndentSize

theorem ofValue?_eq_columns {text : String} {n : UInt32} (h : ofValue? text = some (columns n)) :
    n ≠ 0 := by
  unfold ofValue? at h
  split at h
  · cases h
  · obtain ⟨m, hm, he⟩ := Option.map_eq_some_iff.mp h
    obtain rfl := IndentSize.columns.inj he
    exact positive?_ne_zero hm

theorem ofValue?_value {a : IndentSize} (h : a ≠ columns 0) : ofValue? a.value = some a := by
  cases a with
  | tab => decide
  | columns n =>
    have named : ¬ Text.equalIgnoringCase (toString n.toNat) "tab" = true := by
      intro same
      have letter : 't' ∈ Text.asciiLower (toString n.toNat).toList := by
        rw [beq_iff_eq.mp same]
        decide
      obtain ⟨c, hc, he⟩ := List.mem_map.mp letter
      have digit := isDigit_of_mem_decimal hc
      rw [← Text.isDigit_toLower, he] at digit
      cases digit
    rw [value, ofValue?, if_neg named, positive?_decimal fun he => h (he ▸ rfl)]
    rfl

end IndentSize

namespace Rules
variable {α : Type} {r : Rules} {key k : String} {write : α → String} {rule : Option α}

/-- Sizes and widths are positive, and a size in columns comes with a tab width. -/
structure Coherent (r : Rules) : Prop where
  size : r.indentSize ≠ some (.columns 0)
  width : r.tabWidth ≠ some 0
  together : ∀ n, r.indentSize = some (.columns n) → r.tabWidth ≠ none

/-- The keys that have a meaning, in the order of the table. -/
def keys : List String :=
  ["charset", "end_of_line", "indent_size", "indent_style", "insert_final_newline", "tab_width",
    "trim_trailing_whitespace"]

/-! ## Entries -/

theorem mem_entry {e : String × String} :
    e ∈ entry key write rule ↔ ∃ a, rule = some a ∧ e = (key, write a) := by
  simp [entry, eq_comm]

theorem lookup_entry :
    (entry key write rule).lookup k = if k = key then rule.map write else none := by
  cases rule with
  | none => simp [entry]
  | some a => by_cases h : k = key <;> simp [entry, h, List.lookup_cons, beq_false_of_ne]

theorem keys_entry : k ∈ (entry key write rule).map Prod.fst ↔ k = key ∧ rule ≠ none := by
  cases rule <;> simp [entry]

theorem keys_entry_sublist : ((entry key write rule).map Prod.fst).Sublist [key] := by
  cases rule <;> simp [entry]

theorem mem_keys_entries : key ∈ r.entries.map Prod.fst ↔
    (key = "charset" ∧ r.charset ≠ none) ∨ (key = "end_of_line" ∧ r.endOfLine ≠ none) ∨
    (key = "indent_style" ∧ r.indentStyle ≠ none) ∨ (key = "indent_size" ∧ r.indentSize ≠ none) ∨
    (key = "tab_width" ∧ r.tabWidth ≠ none) ∨
    (key = "insert_final_newline" ∧ r.insertFinalNewline ≠ none) ∨
    (key = "trim_trailing_whitespace" ∧ r.trimTrailingWhitespace ≠ none) := by
  simp only [entries, List.map_append, List.mem_append, keys_entry, or_assoc]

theorem nodup_keys_entries (r : Rules) : (r.entries.map Prod.fst).Nodup := by
  have order : (r.entries.map Prod.fst).Sublist (["charset"] ++ ["end_of_line"] ++
      ["indent_style"] ++ ["indent_size"] ++ ["tab_width"] ++ ["insert_final_newline"] ++
      ["trim_trailing_whitespace"]) := by
    simp only [entries, List.map_append]
    exact (((((keys_entry_sublist.append keys_entry_sublist).append keys_entry_sublist).append
      keys_entry_sublist).append keys_entry_sublist).append keys_entry_sublist).append
      keys_entry_sublist
  exact List.Nodup.sublist order (by decide)

/-- The properties that the entries set. -/
theorem get?_entries (r : Rules) (k : String) :
    (Properties.ofList r.entries).get? k = r.entries.lookup k := by
  rw [Properties.get?, Properties.entries_ofList (nodup_keys_entries r)]

theorem lookup_entries (r : Rules) (k : String) : r.entries.lookup k =
    ((((((if k = "charset" then r.charset.map Charset.value else none).or
      (if k = "end_of_line" then r.endOfLine.map EndOfLine.value else none)).or
      (if k = "indent_style" then r.indentStyle.map IndentStyle.value else none)).or
      (if k = "indent_size" then r.indentSize.map IndentSize.value else none)).or
      (if k = "tab_width" then r.tabWidth.map fun n => toString n.toNat else none)).or
      (if k = "insert_final_newline" then r.insertFinalNewline.map switchValue else none)).or
      (if k = "trim_trailing_whitespace" then r.trimTrailingWhitespace.map switchValue
        else none) := by
  simp only [entries, List.lookup_append, lookup_entry]

/-- A rule is read back if its own value is. -/
theorem bind_restored {read : String → Option α}
    (h : ∀ a, rule = some a → read (write a) = some a) :
    (rule.map write).bind read = rule := by
  cases rule with
  | none => rfl
  | some a => exact h a rfl

theorem tabWidthFor_of_together {width : Option UInt32} {size : Option IndentSize}
    (h : ∀ n, size = some (.columns n) → width ≠ none) : tabWidthFor width size = width := by
  unfold tabWidthFor
  split
  · next n =>
    obtain ⟨w, rfl⟩ := Option.ne_none_iff_exists'.mp (h n rfl)
    rfl
  · rfl

/-- Coherent rules are those that their entries declare. -/
theorem ofProperties_entries (h : r.Coherent) : ofProperties (.ofList r.entries) = r := by
  have size : (r.indentSize.map IndentSize.value).bind IndentSize.ofValue? = r.indentSize :=
    bind_restored fun a ha => IndentSize.ofValue?_value fun he => h.size (he ▸ ha)
  have width : (r.tabWidth.map fun n => toString n.toNat).bind positive? = r.tabWidth :=
    bind_restored fun n hn => positive?_decimal fun he => h.width (he ▸ hn)
  -- Every key finds its own entry, if there is one.
  simp only [ofProperties, get?_entries, lookup_entries, reduceIte, String.reduceEq, Option.none_or,
    Option.or_none]
  rw [size, width, tabWidthFor_of_together h.together, bind_restored fun a _ => choose?_charset a,
    bind_restored fun a _ => choose?_endOfLine a, bind_restored fun a _ => choose?_indentStyle a,
    bind_restored fun on _ => choose?_switch on, bind_restored fun on _ => choose?_switch on]

theorem coherent_ofProperties (p : Properties) : (ofProperties p).Coherent := by
  have size : (ofProperties p).indentSize ≠ some (.columns 0) := by
    intro h
    obtain ⟨text, -, h⟩ := Option.bind_eq_some_iff.mp h
    exact IndentSize.ofValue?_eq_columns h rfl
  have width : ∀ w, (p.get? "tab_width").bind positive? = some w → w ≠ 0 := by
    intro w h
    obtain ⟨text, -, h⟩ := Option.bind_eq_some_iff.mp h
    exact positive?_ne_zero h
  refine ⟨size, ?_, ?_⟩
  · intro h
    have h : tabWidthFor ((p.get? "tab_width").bind positive?) (ofProperties p).indentSize =
        some 0 := h
    unfold tabWidthFor at h
    split at h
    · next n hn =>
      -- The width of a level in columns stands in for a tab width that is not declared.
      rcases Option.or_eq_some_iff.mp h with h | ⟨-, h⟩
      · exact width 0 h rfl
      · exact size (hn.trans (congrArg _ (congrArg _ (Option.some_inj.mp h))))
    · exact width 0 h rfl
  · intro n hn
    have wide : (ofProperties p).tabWidth =
        tabWidthFor ((p.get? "tab_width").bind positive?) (ofProperties p).indentSize := rfl
    rw [wide, hn, tabWidthFor]
    simp

theorem isUnset_iff : r.isUnset = true ↔ r.entries = [] := by
  obtain ⟨charset, endOfLine, indentStyle, indentSize, tabWidth, newline, whitespace⟩ := r
  simp [isUnset, unset, entries, entry]

/-! ## The table -/

/-- The text of a value in the table stays on its line and does not end like `unset`. -/
structure Cell (text : String) : Prop where
  inside : '\n' ∉ text.toList
  last : text.toList.getLast? ≠ some 't'

/-- The row of a key in the table. It tells whether the key has an entry. -/
structure Row (r : Rules) (key : String) (line : List Char) : Prop where
  begins : (key ++ ": ").toList <+: line
  ends : "unset".toList <:+ line ↔ key ∉ r.entries.map Prod.fst

theorem cell_charset (a : Charset) : Cell a.name := by
  cases a <;> exact ⟨by decide, by decide⟩

theorem cell_endOfLine (a : EndOfLine) : Cell a.name := by
  cases a <;> exact ⟨by decide, by decide⟩

theorem cell_indentStyle (a : IndentStyle) : Cell a.value := by
  cases a <;> exact ⟨by decide, by decide⟩

theorem cell_switch (on : Bool) : Cell (switchValue on) := by
  cases on <;> exact ⟨by decide, by decide⟩

theorem cell_decimal (n : Nat) : Cell (toString n) := by
  refine ⟨fun h => ?_, fun h => ?_⟩
  · cases isDigit_of_mem_decimal h
  · cases isDigit_of_mem_decimal (List.mem_of_getLast? h)

theorem cell_indentSize : ∀ a : IndentSize, Cell a.value
  | .columns n => cell_decimal n.toNat
  | .tab => ⟨by decide, by decide⟩

theorem toList_tableLine : (tableLine key write rule).toList =
    (key ++ ": ").toList ++ ((rule.map write).getD "unset").toList := by
  rw [tableLine, String.toList_append]

theorem row_tableLine (cell : ∀ a, Cell (write a))
    (declared : key ∈ r.entries.map Prod.fst ↔ rule ≠ none) :
    r.Row key (tableLine key write rule).toList := by
  rw [toList_tableLine]
  refine ⟨List.prefix_append .., ?_⟩
  rw [declared, not_not]
  cases rule with
  | none => exact iff_of_true ((List.suffix_refl _).trans (List.suffix_append ..)) rfl
  | some a =>
    refine iff_of_false ?_ (Option.some_ne_none a)
    rintro ⟨front, whole⟩
    have last : (front ++ "unset".toList).getLast? = some 't' := by simp
    rw [whole, List.getLast?_append] at last
    rcases Option.or_eq_some_iff.mp last with h | ⟨-, h⟩
    · exact (cell a).last h
    · rw [String.toList_append, List.getLast?_append] at h
      cases h

theorem one_line_tableLine (cell : ∀ a, Cell (write a)) (named : '\n' ∉ key.toList) :
    '\n' ∉ (tableLine key write rule).toList := by
  rw [toList_tableLine, String.toList_append, List.mem_append, List.mem_append, not_or, not_or]
  refine ⟨⟨named, by decide⟩, ?_⟩
  cases rule with
  | none => exact (by decide : '\n' ∉ "unset".toList)
  | some a => exact (cell a).inside

theorem lines_describe (r : Rules) :
    Text.lines r.describe.toList = r.tableLines.map String.toList := by
  refine Text.cuts_iff.mp ⟨?_, by simp [tableLines], ?_⟩
  · rw [describe, String.toList_intercalate]
    rfl
  · simp only [tableLines, List.map_cons, List.map_nil, List.forall_mem_cons]
    exact ⟨one_line_tableLine cell_charset (by decide),
      one_line_tableLine cell_endOfLine (by decide),
      one_line_tableLine cell_indentSize (by decide),
      one_line_tableLine cell_indentStyle (by decide),
      one_line_tableLine cell_switch (by decide),
      one_line_tableLine (fun n : UInt32 => cell_decimal n.toNat) (by decide),
      one_line_tableLine cell_switch (by decide), nofun⟩

/-- The table has a row for every key. -/
theorem rows_describe (r : Rules) : List.Forall₂ r.Row keys (Text.lines r.describe.toList) := by
  rw [lines_describe]
  refine .cons (row_tableLine cell_charset ?_) <| .cons (row_tableLine cell_endOfLine ?_) <|
    .cons (row_tableLine cell_indentSize ?_) <| .cons (row_tableLine cell_indentStyle ?_) <|
    .cons (row_tableLine cell_switch ?_) <|
    .cons (row_tableLine (fun n : UInt32 => cell_decimal n.toNat) ?_) <|
    .cons (row_tableLine cell_switch ?_) .nil
  all_goals simp [mem_keys_entries]

theorem mem_keys_of_entry {e : String × String} (h : e ∈ r.entries) : e.1 ∈ keys := by
  have declared := mem_keys_entries.mp (List.mem_map_of_mem (f := Prod.fst) h)
  rw [keys]
  grind

theorem forall_unset_iff {names : List String} {lines : List (List Char)}
    (rows : List.Forall₂ r.Row names lines) : (∀ line ∈ lines, "unset".toList <:+ line) ↔
      ∀ key ∈ names, key ∉ r.entries.map Prod.fst := by
  induction rows with
  | nil => simp
  | cons row _ ih => simp only [List.forall_mem_cons, row.ends, ih]

/-- No rule is declared if every row of the table ends in `unset`. -/
theorem entries_eq_nil_iff : r.entries = [] ↔
    ∀ line ∈ Text.lines r.describe.toList, "unset".toList <:+ line := by
  rw [forall_unset_iff (rows_describe r)]
  constructor
  · intro none
    simp [none]
  · intro unset
    rw [List.eq_nil_iff_forall_not_mem]
    exact fun e he => unset e.1 (mem_keys_of_entry he) (List.mem_map_of_mem he)

end Rules

end EditorConfig
