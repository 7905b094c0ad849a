import EditorConfig.Text.CaseTable
/-!
# Lower case

Lower-casing of a whole text by the Unicode rules that no language changes. Every character has a
lower-case form of its own, save that the capital I with a dot becomes two characters and that a
capital sigma at the end of a word has a form of its own. `asciiLower` changes the letters of ASCII
only and serves comparisons that ignore their case.
-/
namespace EditorConfig.Text

/-- Lower-cases the letters A to Z and nothing else. -/
def asciiLower (s : List Char) : List Char := s.map Char.toLower

/-- Whether two texts differ at most in the case of ASCII letters. -/
def equalIgnoringCase (a b : String) : Bool := asciiLower a.toList == asciiLower b.toList

/-- Whether a shift applies to the character with code `n`. -/
def CaseShift.covers (r : CaseShift) (n : Nat) : Bool :=
  r.first ≤ n && n ≤ r.last && (n - r.first) % r.step == 0

/-- The lower-case form of one character, whatever stands around it. -/
def lowerChar (c : Char) : List Char :=
  if c.toNat < 128 then [c.toLower]
  else if c = '\u0130' then ['i', '\u0307']
  else match CaseTable.shifts.find? (·.covers c.toNat) with
    | some r => [Char.ofNat (c.toNat + r.offset).toNat]
    | none => [c]

/-- Whether one of the ranges holds the character. -/
def inRanges (ranges : List (Nat × Nat)) (c : Char) : Bool :=
  ranges.any fun (first, last) => first ≤ c.toNat && c.toNat ≤ last

/-- Whether the first character that is not skipped is cased. -/
def startsCased (s : List Char) : Bool :=
  match s.dropWhile (inRanges CaseTable.ignorable) with
  | c :: _ => inRanges CaseTable.cased c
  | [] => false

/-- Lower-cases `s`, the text in front of which is `before`, last character first. A capital sigma
takes its final form after a cased letter, unless a cased letter follows. -/
def lowerFrom (before : List Char) : List Char → List Char
  | [] => []
  | c :: s =>
    let here :=
      if c = 'Σ' then
        if startsCased before && !startsCased s then ['ς'] else ['σ']
      else lowerChar c
    here ++ lowerFrom (c :: before) s

/-- The lower-case form of a text. -/
def lowercase (s : String) : String := String.ofList (lowerFrom [] s.toList)

end EditorConfig.Text
