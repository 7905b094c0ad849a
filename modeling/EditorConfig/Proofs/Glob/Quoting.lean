import EditorConfig.Proofs.Glob.Steps
/-!
# Quoting

A text with a backslash in front of every character is read as its characters, whatever they are.
Braces are closed and split outside such a text, so that quoted texts can also be the alternatives
of a choice.
-/
namespace EditorConfig.Glob

/-- A text with a backslash in front of every character. -/
def quoted (t : List Char) : List Char := t.flatMap fun c => ['\\', c]

/-- The pattern of a quoted text, behind a leading separator. -/
def quotedText (text : String) : String := String.ofList ('/' :: quoted text.toList)

/-- The choice between quoted texts, behind a leading separator. -/
def quotedChoice (texts : List String) : String :=
  String.ofList ('/' :: '{' :: ([','].intercalate (texts.map fun t => quoted t.toList) ++ ['}']))

variable {limit k : Nat} {prev : Option Char} {s t : List Char} {texts : List String}

theorem steps_quoted (prev : Option Char) (t rest : List Char) :
    Steps prev (quoted t ++ rest) (t.map .char) (lastOf prev t) rest := by
  induction t generalizing prev with
  | nil => exact .refl
  | cons c t ih =>
    rw [lastOf_cons]
    exact .cons .escaped (ih (some c))

theorem branch_quoted (t : List Char) : Branch (quoted t) := by
  induction t with
  | nil => exact .nil
  | cons c t ih => exact .escaped ih

theorem denotes_quoted : Denotes prev (quoted t) s ↔ s = t := by
  rw [← List.append_nil (quoted t), denotes_chars (steps_quoted prev t [])]
  simp [denotes_nil]

theorem reads_quoted [Engine] : Reader.Reads limit k prev (quoted t) := by
  rw [← List.append_nil (quoted t)]
  exact .behind_chars (steps_quoted prev t []) Reader.reads_nil

theorem choices_quoted (several : 2 ≤ texts.length) :
    Choices ([','].intercalate (texts.map fun t => quoted t.toList))
      (texts.map fun t => quoted t.toList) := by
  refine ⟨rfl, by rwa [List.length_map], fun b member => ?_⟩
  obtain ⟨t, -, rfl⟩ := List.mem_map.mp member
  exact branch_quoted t.toList

theorem reads_quotedChoice [Engine] (several : 2 ≤ texts.length) : Reader.Reads limit 3 prev
    ('{' :: ([','].intercalate (texts.map fun t => quoted t.toList) ++ ['}'])) := by
  refine .choices (k := 0) (choices_quoted several) (fun b member => ?_) Reader.reads_nil
  obtain ⟨t, -, rfl⟩ := List.mem_map.mp member
  exact reads_quoted

theorem denotes_quotedChoice (several : 2 ≤ texts.length) : Denotes prev
    ('{' :: ([','].intercalate (texts.map fun t => quoted t.toList) ++ ['}'])) s ↔
      String.ofList s ∈ texts := by
  rw [denotes_choices (choices_quoted several)]
  constructor
  · rintro ⟨u, v, rfl, ⟨b, member, hu⟩, hv⟩
    obtain ⟨t, ht, rfl⟩ := List.mem_map.mp member
    rw [denotes_nil.mp hv, List.append_nil, denotes_quoted.mp hu, String.ofList_toList]
    exact ht
  · intro member
    refine ⟨s, [], (List.append_nil s).symm, ⟨_, List.mem_map.mpr ⟨_, member, rfl⟩, ?_⟩, .nil⟩
    rw [denotes_quoted, String.toList_ofList]

/-- Quoted texts whose program is not too large compile and match themselves only: two or more of
them in a choice, and one that is not empty without braces. -/
theorem quoting_complete [Engine] (limit : Nat) :
    (∀ texts : List String, 2 ≤ texts.length → Fits limit (quotedChoice texts) →
      (∃ g, compile (quotedChoice texts) limit = .ok g) ∧
        ∀ path, Accepts limit (quotedChoice texts) path ↔ path ≠ "" ∧ path ∈ texts) ∧
    ∀ text : String, text ≠ "" → Fits limit (quotedText text) →
      (∃ g, compile (quotedText text) limit = .ok g) ∧
        ∀ path, Accepts limit (quotedText text) path ↔ path = text := by
  refine ⟨fun texts several fits => ?_, fun text nonempty fits => ?_⟩
  · have reads : Reader.Reads limit 3 none _ := reads_quotedChoice several
    rw [quotedChoice] at fits ⊢
    refine ⟨(exists_compile_anchored_iff reads (by decide)).mpr fits, fun path => ?_⟩
    rw [accepts_anchored reads (by decide) fits, denotes_quotedChoice several,
      String.ofList_toList, ne_eq, String.toList_eq_nil_iff]
  · have reads : Reader.Reads limit 0 none (quoted text.toList) := reads_quoted
    rw [quotedText] at fits ⊢
    refine ⟨(exists_compile_anchored_iff reads (by decide)).mpr fits, fun path => ?_⟩
    rw [accepts_anchored reads (by decide) fits, denotes_quoted, String.toList_inj,
      ne_eq, String.toList_eq_nil_iff]
    constructor
    · exact fun h => h.2
    · rintro rfl
      exact ⟨nonempty, rfl⟩

theorem quoting_complete_special :
    (∃ g, compile (quotedChoice ["\x7b,\x7d", "", "[*/\n\\"]) 0 = .ok g) ∧
    Accepts 0 (quotedChoice ["\x7b,\x7d", "", "[*/\n\\"]) "[*/\n\\" ∧
    ¬ Accepts 0 (quotedChoice ["\x7b,\x7d", "", "[*/\n\\"]) "" ∧
    (∃ g, compile (quotedText "\x7b,\x7d") 0 = .ok g) ∧
    Accepts 0 (quotedText "\x7b,\x7d") "\x7b,\x7d" := by
  obtain ⟨choices, single⟩ := quoting_complete 0
  obtain ⟨compiled, matched⟩ :=
    choices ["\x7b,\x7d", "", "[*/\n\\"] (by decide) (by decide +kernel)
  obtain ⟨alone, exactly⟩ := single "\x7b,\x7d" (by decide) (by decide +kernel)
  refine ⟨compiled, (matched _).mpr ⟨by decide, by simp⟩, ?_, alone, (exactly _).mpr rfl⟩
  exact fun h => ((matched _).mp h).1 rfl

end EditorConfig.Glob
