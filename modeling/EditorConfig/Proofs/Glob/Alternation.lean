import EditorConfig.Proofs.Glob.Choosing
/-!
# Alternatives in their place

Alternatives between two texts match what each of them matches when it is written there without the
braces, as long as stars at the edges of an alternative mean the same in both places. An alternative
is read like a pattern of its own: stars for whole directories at its beginning do not see that no
path segment may begin there, and match too much; stars at its end do not see a separator behind the
brace, and match too little. All this is about patterns that compile: one whose program is too large
matches nothing.
-/
namespace EditorConfig.Glob

/-- Alternatives between two texts, behind a leading separator. -/
def grouped (before : List Char) (alternatives : List (List Char)) (behind : List Char) : String :=
  String.ofList ('/' :: (before ++ '{' :: ([','].intercalate alternatives ++ '}' :: behind)))

/-- One alternative in the place of the braces. -/
def spliced (before alternative behind : List Char) : String :=
  String.ofList ('/' :: (before ++ (alternative ++ behind)))

/-- The alternative begins with stars for whole directories where no path segment begins. -/
def LooseStart (before alternative : List Char) : Prop :=
  ¬ AtSegmentStart before.getLast? ∧ OpensWithStars alternative

/-- The alternative ends with stars that stand for whole directories only in front of `behind`. -/
def LooseEnd (before alternative behind : List Char) : Prop :=
  EndsWithStars before.getLast? alternative ∧ behind.head? = some '/'

variable {limit : Nat} {prev : Option Char} {before behind alternative rest s : List Char}
  {alternatives : List (List Char)} {path : String}

/-! ## The texts of both patterns -/

theorem EndsWithStars.getLast? (h : EndsWithStars prev s) : s.getLast? = some '*' := by
  obtain ⟨front, n, rfl, -, -⟩ := h
  simp [List.getLast?_append, List.getLast?_replicate]

theorem Literal.getLast? (h : Literal s) : s.getLast? ≠ some '*' :=
  fun last => h '*' (List.mem_of_getLast? last) (by decide)

theorem Literal.head? (h : Literal s) : s.head? ≠ some '*' :=
  fun first => h '*' (List.mem_of_head? first) (by decide)

/-- Nothing fuses behind a text that does not end with a star. -/
theorem not_fuses (h : s.getLast? ≠ some '*') : ¬ Fuses prev s rest := by
  rintro (⟨last, -⟩ | ⟨ends, -⟩)
  · exact h last
  · exact h ends.getLast?

theorem choices_of_wild (several : 2 ≤ alternatives.length) (wild : ∀ a ∈ alternatives, Wild a) :
    Choices ([','].intercalate alternatives) alternatives :=
  ⟨rfl, several, fun a ha => (wild a ha).branch⟩

theorem denotes_before (literal : Literal before) :
    Denotes none (before ++ rest) s ↔ ∃ t, s = before ++ t ∧ Denotes before.getLast? rest t := by
  have last : lastOf none before = before.getLast? := Option.or_none
  rw [denotes_append (literal.wild.simple none) (not_fuses literal.getLast?), last]
  constructor
  · rintro ⟨u, t, rfl, hu, ht⟩
    exact ⟨t, by rw [(denotes_literal literal).mp hu], ht⟩
  · rintro ⟨t, rfl, ht⟩
    exact ⟨before, t, rfl, (denotes_literal literal).mpr rfl, ht⟩

section
variable [Engine]

/-- Alternatives match what they match like patterns of their own. -/
theorem accepts_grouped (hbefore : Literal before) (hbehind : Literal behind)
    (several : 2 ≤ alternatives.length) (wild : ∀ a ∈ alternatives, Wild a)
    (fits : Fits limit (grouped before alternatives behind)) :
    Accepts limit (grouped before alternatives behind) path ↔ path.toList ≠ [] ∧
      ∃ a ∈ alternatives, ∃ u, Denotes none a u ∧ path.toList = before ++ (u ++ behind) := by
  have choices := choices_of_wild several wild
  have reads : Reader.Reads limit 7 none (before ++ _) :=
    .behind hbefore (.choices choices (fun a ha => Reader.reads_simple ((wild a ha).simple none))
      (Reader.reads_literal hbehind))
  rw [grouped] at fits ⊢
  rw [accepts_anchored reads (by decide) fits, denotes_before hbefore]
  refine and_congr_right fun _ => ?_
  have group : ∀ t, Denotes before.getLast? ('{' :: ([','].intercalate alternatives ++
      '}' :: behind)) t ↔ ∃ u, (∃ a ∈ alternatives, Denotes none a u) ∧ t = u ++ behind := by
    intro t
    rw [denotes_choices choices, ← then_eq]
    exact then_congr (fun _ => Iff.rfl) fun _ => denotes_literal hbehind
  simp only [group]
  constructor
  · rintro ⟨_, hpath, u, ⟨a, ha, hu⟩, rfl⟩
    exact ⟨a, ha, u, hu, hpath⟩
  · rintro ⟨a, ha, u, hu, hpath⟩
    exact ⟨_, hpath, u, ⟨a, ha, hu⟩, rfl⟩

theorem accepts_spliced (hbefore : Literal before) (hbehind : Literal behind)
    (wild : Wild alternative) (fits : Fits limit (spliced before alternative behind)) :
    Accepts limit (spliced before alternative behind) path ↔ path.toList ≠ [] ∧
      ∃ t, path.toList = before ++ t ∧ Denotes before.getLast? (alternative ++ behind) t := by
  have whole : Wild (alternative ++ behind) := wild_append.mpr ⟨wild, hbehind.wild⟩
  have reads : Reader.Reads limit 4 none (before ++ _) :=
    .behind hbefore (Reader.reads_simple (whole.simple _))
  rw [spliced] at fits ⊢
  rw [accepts_anchored reads (by decide) fits, denotes_before hbefore]

/-! ## Alternatives that mean the same in both places -/

omit [Engine] in
/-- The text behind an alternative is matched behind it, unless stars at its end see a separator. -/
theorem denotes_behind_alternative (hbehind : Literal behind) (wild : Wild alternative)
    (tight : ¬ LooseEnd before alternative behind) :
    Denotes before.getLast? (alternative ++ behind) s ↔
      ∃ u, Denotes before.getLast? alternative u ∧ s = u ++ behind := by
  have apart : ¬ Fuses before.getLast? alternative behind := by
    rintro (⟨-, star⟩ | loose)
    · exact hbehind.head? star
    · exact tight loose
  rw [denotes_append (wild.simple _) apart, ← then_eq]
  exact then_congr (fun _ => Iff.rfl) fun _ => denotes_literal hbehind

omit [Engine] in
theorem denotes_alternative (wild : Wild alternative) (tight : ¬ LooseStart before alternative) :
    Denotes before.getLast? alternative s ↔ Denotes none alternative s := by
  refine denotes_congr_prev (wild.simple _) fun opens => ?_
  have start : AtSegmentStart before.getLast? := by
    by_contra inside
    exact tight ⟨inside, opens⟩
  exact iff_of_true start (.inl rfl)

theorem accepts_spliced_of_tight (hbefore : Literal before) (hbehind : Literal behind)
    (wild : Wild alternative) (start : ¬ LooseStart before alternative)
    (tight : ¬ LooseEnd before alternative behind)
    (fits : Fits limit (spliced before alternative behind)) :
    Accepts limit (spliced before alternative behind) path ↔ path.toList ≠ [] ∧
      ∃ u, Denotes none alternative u ∧ path.toList = before ++ (u ++ behind) := by
  rw [accepts_spliced hbefore hbehind wild fits]
  refine and_congr_right fun _ => ?_
  simp only [denotes_behind_alternative hbehind wild tight, denotes_alternative wild start]
  constructor
  · rintro ⟨_, hpath, u, hu, rfl⟩
    exact ⟨u, hu, hpath⟩
  · rintro ⟨u, hu, hpath⟩
    exact ⟨_, hpath, u, hu, rfl⟩

/-! ## Alternatives that do not -/

/-- Stars at the beginning of the alternative match nothing in braces, where they must match a
separator without. -/
theorem exists_too_much (hbefore : Literal before) (hbehind : Literal behind)
    (wild : Wild alternative) (start : LooseStart before alternative)
    (tight : ¬ LooseEnd before alternative behind)
    (fits : Fits limit (grouped before [alternative, alternative] behind))
    (fitsAlone : Fits limit (spliced before alternative behind)) :
    ∃ path, Accepts limit (grouped before [alternative, alternative] behind) path ∧
      ¬ Accepts limit (spliced before alternative behind) path := by
  obtain ⟨inside, n, rest, rfl⟩ := start
  have wildRest : Wild rest := fun c hc => wild c (by simp [hc])
  obtain ⟨u, hu, shortest⟩ := exists_shortest (wildRest.simple (some '/'))
  refine ⟨String.ofList (before ++ (u ++ behind)), ?_, ?_⟩
  · rw [accepts_grouped hbefore hbehind (by simp) (by simpa using wild) fits,
      String.toList_ofList]
    have nonempty : before ≠ [] := fun he => inside (.inl (he ▸ rfl))
    refine ⟨by simp [nonempty], _, List.mem_cons_self, u, ?_, rfl⟩
    rw [denotes_starsSeparator n (.inl rfl)]
    exact ⟨[], u, rfl, .inl rfl, hu⟩
  · rw [accepts_spliced hbefore hbehind wild fitsAlone, String.toList_ofList]
    rintro ⟨-, t, hpath, ht⟩
    obtain rfl := List.append_cancel_left hpath
    obtain ⟨v, hv, he⟩ := (denotes_behind_alternative hbehind wild tight).mp ht
    obtain rfl := List.append_cancel_right he
    rw [denotes_stars n (by simp) fun h => inside h.1] at hv
    obtain ⟨x, y, rfl, -, hy⟩ := hv
    rw [denotes_ordinary (by decide), then_char] at hy
    obtain ⟨z, rfl, hz⟩ := hy
    -- A shorter text would be left for the rest.
    have := shortest z hz
    simp only [List.length_append, List.length_cons] at this
    omega

/-- Without braces, stars at the end of the alternative can match nothing together with the
separator behind them, which in braces has to be there. -/
theorem exists_too_little (hbefore : Literal before) (hbehind : Literal behind)
    (wild : Wild alternative) (tight : ¬ LooseStart before alternative)
    (ends : LooseEnd before alternative behind) (place : before ≠ [] ∨ behind ≠ ['/'])
    (fits : Fits limit (grouped before [alternative, alternative] behind))
    (fitsAlone : Fits limit (spliced before alternative behind)) :
    ∃ path, Accepts limit (spliced before alternative behind) path ∧
      ¬ Accepts limit (grouped before [alternative, alternative] behind) path := by
  obtain ⟨⟨front, n, rfl, last, start⟩, separator⟩ := ends
  obtain ⟨rest, rfl⟩ := List.head?_eq_some_iff.mp separator
  have wildFront : Wild front := (wild_append.mp wild).1
  have hrest : Literal rest := (List.forall_mem_cons.mp hbehind).2
  obtain ⟨u, hu, shortest⟩ := exists_shortest (wildFront.simple before.getLast?)
  refine ⟨String.ofList (before ++ (u ++ rest)), ?_, ?_⟩
  · rw [accepts_spliced hbefore hbehind wild fitsAlone, String.toList_ofList]
    have nonempty : before ++ (u ++ rest) ≠ [] := by
      intro he
      simp only [List.append_eq_nil_iff] at he
      rcases place with h | h
      · exact h he.1
      · exact h (by rw [he.2.2])
    refine ⟨nonempty, _, rfl, ?_⟩
    rw [List.append_assoc, denotes_append (wildFront.simple _) (not_fuses last)]
    refine ⟨u, rest, rfl, hu, ?_⟩
    rw [denotes_starsSeparator n start]
    exact ⟨[], rest, rfl, .inl rfl, (denotes_literal hrest).mpr rfl⟩
  · rw [accepts_grouped hbefore hbehind (by simp) (by simpa using wild) fits,
      String.toList_ofList]
    rintro ⟨-, a, ha, v, hv, hpath⟩
    obtain rfl : a = front ++ List.replicate (n + 2) '*' := by simpa using ha
    have he := List.append_cancel_left hpath
    rw [List.append_cons] at he
    obtain rfl := List.append_cancel_right he
    rw [denotes_append (wildFront.simple _) (not_fuses last)] at hv
    obtain ⟨x, y, rfl, hx, -⟩ := hv
    have tightFront : ¬ LooseStart before front := by
      rintro ⟨inside, m, more, rfl⟩
      exact tight ⟨inside, m, more ++ List.replicate (n + 2) '*', by simp⟩
    -- What is left for the text in front of the stars would be shorter.
    have := shortest x ((denotes_alternative wildFront tightFront).mpr hx)
    simp only [List.length_append, List.length_cons, List.length_nil] at this
    omega

/-- A choice between alternatives is the union of what each of them adds. Where the stars at their
edges mean the same with and without braces, that is what the alternatives match in their place;
where those at one edge of an alternative do not, it is not, unless no text stands around but a
separator. None of the programs for these texts may be too large. -/
theorem alternation_distributes (limit : Nat) (hbefore : Literal before) (hbehind : Literal behind)
    (several : 2 ≤ alternatives.length) (wild : ∀ a ∈ alternatives, Wild a)
    (fits : Fits limit (grouped before alternatives behind))
    (fitsDouble : ∀ a ∈ alternatives, Fits limit (grouped before [a, a] behind))
    (fitsAlone : ∀ a ∈ alternatives, Fits limit (spliced before a behind)) :
    (∀ path, Accepts limit (grouped before alternatives behind) path ↔
      ∃ a ∈ alternatives, Accepts limit (grouped before [a, a] behind) path) ∧
    ((∀ a ∈ alternatives, ¬ LooseStart before a ∧ ¬ LooseEnd before a behind) →
      ∀ path, Accepts limit (grouped before alternatives behind) path ↔
        ∃ a ∈ alternatives, Accepts limit (spliced before a behind) path) ∧
    ∀ a ∈ alternatives, ¬ (LooseStart before a ∧ LooseEnd before a behind) →
      before ≠ [] ∨ behind ≠ ['/'] →
      ((∀ path, Accepts limit (grouped before [a, a] behind) path ↔
          Accepts limit (spliced before a behind) path) ↔
        ¬ LooseStart before a ∧ ¬ LooseEnd before a behind) := by
  have double : ∀ a ∈ alternatives, ∀ path, Accepts limit (grouped before [a, a] behind) path ↔
      path.toList ≠ [] ∧ ∃ u, Denotes none a u ∧ path.toList = before ++ (u ++ behind) := by
    intro a ha path
    have both : ∀ b ∈ [a, a], Wild b := by simpa using wild a ha
    rw [accepts_grouped hbefore hbehind le_rfl both (fitsDouble a ha)]
    simp
  have tight : ∀ a ∈ alternatives, ¬ LooseStart before a ∧ ¬ LooseEnd before a behind → ∀ path,
      (Accepts limit (grouped before [a, a] behind) path ↔
        Accepts limit (spliced before a behind) path) := by
    rintro a ha ⟨start, ends⟩ path
    rw [double a ha, accepts_spliced_of_tight hbefore hbehind (wild a ha) start ends
      (fitsAlone a ha)]
  have union : ∀ path, Accepts limit (grouped before alternatives behind) path ↔
      ∃ a ∈ alternatives, Accepts limit (grouped before [a, a] behind) path := by
    intro path
    rw [accepts_grouped hbefore hbehind several wild fits]
    constructor
    · rintro ⟨nonempty, a, ha, found⟩
      exact ⟨a, ha, (double a ha path).mpr ⟨nonempty, found⟩⟩
    · rintro ⟨a, ha, h⟩
      obtain ⟨nonempty, found⟩ := (double a ha path).mp h
      exact ⟨nonempty, a, ha, found⟩
  refine ⟨union, fun all path => ?_, fun a ha one place => ⟨fun same => ?_, tight a ha⟩⟩
  · rw [union]
    exact exists_congr fun a => and_congr_right fun ha => tight a ha (all a ha) path
  · refine ⟨fun start => ?_, fun ends => ?_⟩
    · obtain ⟨path, inside, outside⟩ := exists_too_much hbefore hbehind (wild a ha) start
        (fun ends => one ⟨start, ends⟩) (fitsDouble a ha) (fitsAlone a ha)
      exact outside ((same path).mp inside)
    · obtain ⟨path, outside, inside⟩ := exists_too_little hbefore hbehind (wild a ha)
        (fun start => one ⟨start, ends⟩) ends place (fitsDouble a ha) (fitsAlone a ha)
      exact inside ((same path).mpr outside)

end

/-- Stars at both edges of an alternative, at the beginning of a path segment and away from the
separator. -/
theorem alternation_distributes_segments :
    Literal "src/".toList ∧ Literal ".c".toList ∧ 2 ≤ ["**/a".toList, "?**".toList].length ∧
    (∀ a ∈ ["**/a".toList, "?**".toList], Wild a) ∧
    grouped "src/".toList ["**/a".toList, "?**".toList] ".c".toList = "/src/\x7b**/a,?**\x7d.c" ∧
    ∀ path, Accepts 0 "/src/\x7b**/a,?**\x7d.c" path ↔
      Accepts 0 "/src/**/a.c" path ∨ Accepts 0 "/src/?**.c" path := by
  have before : Literal "src/".toList := by decide +kernel
  have behind : Literal ".c".toList := by decide +kernel
  have wild : ∀ a ∈ ["**/a".toList, "?**".toList], Wild a := by decide +kernel
  have text : grouped "src/".toList ["**/a".toList, "?**".toList] ".c".toList =
      "/src/\x7b**/a,?**\x7d.c" := by decide
  have first : spliced "src/".toList "**/a".toList ".c".toList = "/src/**/a.c" := by decide
  have second : spliced "src/".toList "?**".toList ".c".toList = "/src/?**.c" := by decide
  have edges : ∀ a ∈ ["**/a".toList, "?**".toList],
      ¬ LooseStart "src/".toList a ∧ ¬ LooseEnd "src/".toList a ".c".toList := by
    intro a _
    exact ⟨fun h => h.1 (.inr rfl), fun h => absurd h.2 (by decide)⟩
  refine ⟨before, behind, by decide, wild, text, fun path => ?_⟩
  have all := (alternation_distributes 0 before behind (by decide) wild (by decide +kernel)
    (by decide +kernel) (by decide +kernel)).2.1 edges path
  rw [text] at all
  simpa only [List.exists_mem_cons_iff, first, second, List.not_mem_nil, false_and, exists_false,
    or_false] using all

/-- In braces the stars match nothing, though the letter in front of them goes on. -/
theorem isMatch_loose_start :
    grouped "a".toList ["**/b".toList, "c".toList] [] = "/a\x7b**/b,c\x7d" ∧
    spliced "a".toList "**/b".toList [] = "/a**/b" ∧ spliced "a".toList "c".toList [] = "/ac" ∧
    matchesPath "/a\x7b**/b,c\x7d" "ab" = true ∧ matchesPath "/a**/b" "ab" = false ∧
    matchesPath "/ac" "ab" = false := by
  have group : compile "/a\x7b**/b,c\x7d" defaultLimit = .ok ⟨"/a\x7b**/b,c\x7d",
      .atom (.char 'a') (.group (.either (.atom .directories (.atom (.char 'b') .nil))
        (.atom (.char 'c') .nil)) .nil)⟩ := by
    decide +kernel
  have first : compile "/a**/b" defaultLimit = .ok ⟨"/a**/b", .atom (.char 'a')
      (.atom .anything (.atom (.char '/') (.atom (.char 'b') .nil)))⟩ := by
    decide +kernel
  have second : compile "/ac" defaultLimit =
      .ok ⟨"/ac", .atom (.char 'a') (.atom (.char 'c') .nil)⟩ := by
    decide +kernel
  simp only [matchesPath, group, first, second]
  decide +kernel

end EditorConfig.Glob
