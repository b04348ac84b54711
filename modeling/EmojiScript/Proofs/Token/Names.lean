import EmojiScript.Proofs.Token.Lexeme

namespace EmojiScript

/-!
# How names and texts are spelled

The kinds are tried in an order, so a word is a run of lowercase letters at which no keyword was
found, and the text between quotes holds no quote.  Conversely, such a run in front of any other
character is found as a word, and so are a text in quotes and a run of digits.

* `IsName`, `Quoteless` — what may stand in a word and between quotes.
* `Kind.isName_of_find?`, `Kind.exists_inner_of_find?` — words and texts that were found.
* `Kind.beginningWith` — the kinds that may begin with a character.
* `Kind.find?_catalog_word`, `Kind.find?_catalog_text`, `Kind.find?_catalog_number` — words, texts
  and numerals in front of something else.
-/

/-- The words that are no names, nor the beginnings of any. -/
def keywords : List String := ["print", "ejprint", "ejkey"]

theorem isLower_of_mem_keywords : ∀ keyword ∈ keywords, keyword.toList.all Char.isLower = true := by
  decide

/-- A run of lowercase letters that does not begin with a keyword. -/
structure IsName (text : String) : Prop where
  ne_empty : text ≠ ""
  isLower : ∀ c ∈ text.toList, c.isLower = true
  free : ∀ keyword ∈ keywords, ¬ keyword.toList <+: text.toList

instance (text : String) : Decidable (IsName text) :=
  decidable_of_iff (text ≠ "" ∧ text.toList.all Char.isLower = true ∧
      ∀ keyword ∈ keywords, ¬ keyword.toList <+: text.toList)
    ⟨fun h => ⟨h.1, List.all_eq_true.mp h.2.1, h.2.2⟩,
      fun h => ⟨h.ne_empty, List.all_eq_true.mpr h.isLower, h.free⟩⟩

/-- A text that can be put in quotes. -/
def Quoteless (text : String) : Prop := '"' ∉ text.toList

instance (text : String) : Decidable (Quoteless text) := inferInstanceAs (Decidable (_ ∉ _))

theorem Quoteless.append {a b : String} (ha : Quoteless a) (hb : Quoteless b) :
    Quoteless (a ++ b) := by
  unfold Quoteless
  rw [String.toList_append, List.mem_append]
  rintro (h | h)
  · exact ha h
  · exact hb h

/-- Names have no quotes in them. -/
theorem IsName.quoteless {text : String} (h : IsName text) : Quoteless text := by
  intro hquote
  exact absurd (h.isLower '"' hquote) (by decide)

namespace Kind

variable {rest lexeme : List Char} {kind : Kind}

/-! ### What is found -/

/-- The kinds that come before the one that is found accept nothing. -/
theorem lexeme_eq_nil_of_find? {before : List Kind} (after : List Kind) (hnew : kind ∉ before)
    (h : find? (before ++ kind :: after) rest = some (kind, lexeme)) :
    ∀ earlier ∈ before, earlier.lexeme rest = [] := by
  induction before with
  | nil => simp
  | cons first before ih =>
    obtain ⟨hne, hnew⟩ := not_or.mp (List.mem_cons.not.mp hnew)
    rw [List.cons_append] at h
    by_cases hfirst : first.lexeme rest = []
    · rw [find?_cons_of_eq_nil hfirst] at h
      exact List.forall_mem_cons.mpr ⟨hfirst, ih hnew h⟩
    · rw [find?_cons_of_ne_nil hfirst] at h
      obtain ⟨rfl, _⟩ := Prod.mk.inj (Option.some.inj h)
      exact absurd rfl hne

/-- A kind is found where those before it accept nothing. -/
theorem find?_of_lexeme_eq_nil (kind : Kind) {before : List Kind} (after : List Kind)
    (hearlier : ∀ earlier ∈ before, earlier.lexeme rest = []) (h : kind.lexeme rest ≠ []) :
    find? (before ++ kind :: after) rest = some (kind, kind.lexeme rest) := by
  induction before with
  | nil => exact find?_cons_of_ne_nil h
  | cons first before ih =>
    obtain ⟨hfirst, hbefore⟩ := List.forall_mem_cons.mp hearlier
    rw [List.cons_append, find?_cons_of_eq_nil hfirst]
    exact ih hbefore

/-- A spelling is accepted exactly where it stands. -/
theorem literal_ne_nil_iff {spelling : List Char} (hne : spelling ≠ []) :
    literal spelling rest ≠ [] ↔ spelling <+: rest := by
  unfold literal
  split
  next h => simpa [hne] using List.isPrefixOf_iff_prefix.mp h
  next h => simpa using mt List.isPrefixOf_iff_prefix.mpr h

/-- A word is a name. -/
theorem isName_of_find? (h : find? catalog rest = some (.word, lexeme)) :
    IsName (String.ofList lexeme) := by
  obtain ⟨_, hlexeme, hne⟩ := find?_eq_some h
  have hearlier : ∀ keyword ∈ [print, ejprint, ejkey], keyword.lexeme rest = [] := by
    have hall : ∀ earlier ∈ catalog.take 13, earlier.lexeme rest = [] :=
      lexeme_eq_nil_of_find? [hash] (by decide) h
    intro keyword hkeyword
    exact hall keyword (by revert keyword; decide)
  have hrest : lexeme <+: rest := by
    rw [hlexeme]
    exact List.takeWhile_prefix _
  constructor
  · simpa using hne
  · intro c hc
    rw [String.toList_ofList, hlexeme] at hc
    exact List.all_eq_true.mp List.all_takeWhile c hc
  · intro keyword hkeyword hprefix
    rw [String.toList_ofList] at hprefix
    have hprefix := hprefix.trans hrest
    simp only [keywords, List.mem_cons, List.not_mem_nil, or_false] at hkeyword
    rcases hkeyword with rfl | rfl | rfl
    · exact (literal_ne_nil_iff (by decide)).mpr hprefix (hearlier print (by decide))
    · exact (literal_ne_nil_iff (by decide)).mpr hprefix (hearlier ejprint (by decide))
    · exact (literal_ne_nil_iff (by decide)).mpr hprefix (hearlier ejkey (by decide))

/-- What is accepted as a text is in quotes and holds none. -/
theorem exists_inner_of_quoted (h : quoted rest ≠ []) :
    ∃ inner, quoted rest = '"' :: (inner ++ ['"']) ∧ '"' ∉ inner := by
  unfold quoted at h ⊢
  split at h
  next inner =>
    split at h
    next hclosed =>
      refine ⟨inner.takeWhile (· ≠ '"'), if_pos hclosed, ?_⟩
      intro hquote
      have hother := List.all_eq_true.mp List.all_takeWhile '"' hquote
      simp at hother
    next => exact absurd rfl h
  next => exact absurd rfl h

/-- A text is in quotes and holds none. -/
theorem exists_inner_of_find? {order : List Kind} (h : find? order rest = some (.text, lexeme)) :
    ∃ inner, lexeme = '"' :: (inner ++ ['"']) ∧ '"' ∉ inner := by
  obtain ⟨_, hlexeme, hne⟩ := find?_eq_some h
  have hquoted : lexeme = quoted rest := hlexeme
  rw [hquoted] at hne ⊢
  exact exists_inner_of_quoted hne

/-- An emoji is one character, and no quote. -/
theorem quoteless_of_find?_emoji {order : List Kind}
    (h : find? order rest = some (.emoji, lexeme)) : '"' ∉ lexeme := by
  obtain ⟨_, hlexeme, _⟩ := find?_eq_some h
  cases rest with
  | nil => simp [hlexeme]
  | cons c rest =>
    rw [hlexeme, Kind.lexeme, glyph]
    split
    next hlarge =>
      rw [List.mem_singleton]
      rintro rfl
      exact absurd hlarge (by decide)
    next => simp

/-! ### What stands in front of something else -/

theorem isLower_iff_toNat {c : Char} :
    c.isLower = true ↔ 'a'.toNat ≤ c.toNat ∧ c.toNat ≤ 'z'.toNat := by
  show (decide ('a'.val ≤ c.val) && decide (c.val ≤ 'z'.val)) = true ↔ _
  simp [UInt32.le_iff_toNat_le, ← Char.toNat_val]

/-- The kinds whose lexemes may begin with a character: one kind, or the keywords and words. -/
def beginningWith (c : Char) : List Kind :=
  if c.isLower then [print, ejprint, ejkey, word]
  else if c.isDigit then [number]
  else if 0x10000 ≤ c.toNat then [emoji]
  else if isBlank c then [space]
  else match c with
    | '"' => [text]
    | '=' => [equals]
    | '+' => [plus]
    | '-' => [minus]
    | '(' => [openParen]
    | ')' => [closeParen]
    | ';' => [semicolon]
    | '#' => [hash]
    | _ => []

theorem beginningWith_of_isLower {c : Char} (h : c.isLower = true) :
    beginningWith c = [print, ejprint, ejkey, word] := if_pos h

theorem beginningWith_of_isDigit {c : Char} (h : c.isDigit = true) : beginningWith c = [number] := by
  have hlower : ¬ c.isLower = true := by
    rw [Char.isDigit_iff_toNat] at h
    rw [isLower_iff_toNat]
    simp only [Char.reduceToNat] at h ⊢
    omega
  unfold beginningWith
  rw [if_neg hlower, if_pos h]

theorem beginningWith_of_le {c : Char} (h : 0x10000 ≤ c.toNat) : beginningWith c = [emoji] := by
  have hlower : ¬ c.isLower = true := by
    rw [isLower_iff_toNat]
    simp only [Char.reduceToNat]
    omega
  have hdigit : ¬ c.isDigit = true := by
    rw [Char.isDigit_iff_toNat]
    simp only [Char.reduceToNat]
    omega
  unfold beginningWith
  rw [if_neg hlower, if_neg hdigit, if_pos h]

theorem beginningWith_of_isBlank {c : Char} (h : isBlank c = true) : beginningWith c = [space] := by
  have hranges := isBlank_iff.mp h
  simp only [blankRanges, List.mem_cons, List.not_mem_nil, or_false, exists_eq_or_imp,
    exists_eq_left] at hranges
  have hlower : ¬ c.isLower = true := by
    rw [isLower_iff_toNat]
    simp only [Char.reduceToNat]
    omega
  have hdigit : ¬ c.isDigit = true := by
    rw [Char.isDigit_iff_toNat]
    simp only [Char.reduceToNat]
    omega
  unfold beginningWith
  rw [if_neg hlower, if_neg hdigit, if_neg (by omega), if_pos h]

/-- A spelling stands only where its first character does. -/
theorem eq_of_literal_ne_nil {first c : Char} {spelling : List Char}
    (h : literal (first :: spelling) (c :: rest) ≠ []) : first = c := by
  by_contra hne
  exact h (by simp [literal, List.isPrefixOf, hne])

/-- A lexeme begins with a character that its kind may begin with. -/
theorem mem_beginningWith {c : Char} (h : kind.lexeme (c :: rest) ≠ []) :
    kind ∈ beginningWith c := by
  have hrun : ∀ {p : Char → Bool}, (c :: rest).takeWhile p ≠ [] → p c = true := by
    intro p hne
    by_contra hc
    exact hne (List.takeWhile_cons_of_neg hc)
  cases kind with
  | space => simp [beginningWith_of_isBlank (hrun h)]
  | word => simp [beginningWith_of_isLower (hrun h)]
  | number => simp [beginningWith_of_isDigit (hrun h)]
  | emoji =>
    have hlarge : 0x10000 ≤ c.toNat := by
      by_contra hsmall
      exact h (if_neg hsmall)
    simp [beginningWith_of_le hlarge]
  | text =>
    have hquote : c = '"' := by
      by_contra hother
      exact h (by simp [lexeme, quoted, hother])
    subst hquote
    decide
  | _ =>
    obtain rfl := eq_of_literal_ne_nil h
    decide

/-- A kind accepts nothing where another kind has to begin. -/
theorem lexeme_cons_eq_nil {c : Char} (h : kind ∉ beginningWith c) : kind.lexeme (c :: rest) = [] := by
  by_contra hne
  exact h (mem_beginningWith hne)

/-- A keyword at the front of a run of letters and something else is at the front of the run. -/
theorem literal_append_cons_eq_nil {spelling name : List Char} {c : Char}
    (hlower : ∀ d ∈ spelling, d.isLower = true) (hc : c.isLower = false)
    (hfree : ¬ spelling <+: name) : literal spelling (name ++ c :: rest) = [] := by
  refine if_neg ?_
  rw [List.isPrefixOf_iff_prefix]
  intro hprefix
  rcases List.prefix_or_prefix_of_prefix hprefix (List.prefix_append name _) with hshort | hlong
  · exact hfree hshort
  · -- the keyword would take in the character behind the name
    obtain ⟨tail, rfl⟩ := hlong
    cases tail with
    | nil => exact hfree (by simp)
    | cons d tail =>
      rw [List.prefix_append_right_inj] at hprefix
      obtain ⟨rfl, _⟩ := List.cons_prefix_cons.mp hprefix
      simp [hlower d (by simp)] at hc

/-- A run in front of a character that does not belong to it is the whole run. -/
theorem takeWhile_append_cons {p : Char → Bool} {run : List Char} (hrun : ∀ c ∈ run, p c = true)
    {c : Char} (hc : p c = false) (rest : List Char) :
    (run ++ c :: rest).takeWhile p = run := by
  rw [List.takeWhile_append_of_pos hrun, List.takeWhile_cons_of_neg (by simp [hc]), List.append_nil]

/-- A name in front of anything but another letter is found as a word. -/
theorem find?_catalog_word {name : String} (hname : IsName name) {c : Char}
    (hc : c.isLower = false) (rest : List Char) :
    find? catalog (name.toList ++ c :: rest) = some (.word, name.toList) := by
  have hword : word.lexeme (name.toList ++ c :: rest) = name.toList :=
    takeWhile_append_cons hname.isLower hc rest
  have hne : name.toList ≠ [] := by simpa using hname.ne_empty
  have hkeyword : ∀ keyword ∈ keywords,
      literal keyword.toList (name.toList ++ c :: rest) = [] := by
    intro keyword hmem
    have hlower := List.all_eq_true.mp (isLower_of_mem_keywords keyword hmem)
    exact literal_append_cons_eq_nil hlower hc (hname.free keyword hmem)
  obtain ⟨first, letters, hfirst⟩ := List.exists_cons_of_ne_nil hne
  have hlower : first.isLower = true := hname.isLower first (by simp [hfirst])
  have hearlier : ∀ earlier ∈ catalog.take 13,
      earlier.lexeme (name.toList ++ c :: rest) = [] := by
    intro earlier hmem
    cases earlier with
    | print => exact hkeyword "print" (by decide)
    | ejprint => exact hkeyword "ejprint" (by decide)
    | ejkey => exact hkeyword "ejkey" (by decide)
    | word => exact absurd hmem (by decide)
    | _ =>
      rw [hfirst]
      exact lexeme_cons_eq_nil (by rw [beginningWith_of_isLower hlower]; decide)
  have hfound := find?_of_lexeme_eq_nil word [hash] hearlier (by rwa [hword])
  rwa [hword] at hfound

/-- A text in quotes is accepted up to its second quote. -/
theorem quoted_cons {inner : List Char} (h : '"' ∉ inner) (rest : List Char) :
    quoted ('"' :: (inner ++ '"' :: rest)) = '"' :: (inner ++ ['"']) := by
  have hinner : (inner ++ '"' :: rest).takeWhile (· ≠ '"') = inner := by
    refine takeWhile_append_cons ?_ (by decide) rest
    intro c hc
    have hne : c ≠ '"' := by
      rintro rfl
      exact h hc
    simp [hne]
  rw [quoted, if_pos (by simp), hinner]
  rfl

/-- A text in quotes is found whatever stands behind it. -/
theorem find?_catalog_text {text : String} (h : Quoteless text) (rest : List Char) :
    find? catalog ('"' :: (text.toList ++ '"' :: rest)) =
      some (Kind.text, '"' :: (text.toList ++ ['"'])) := by
  have hlexeme : Kind.text.lexeme ('"' :: (text.toList ++ '"' :: rest)) =
      '"' :: (text.toList ++ ['"']) := quoted_cons h rest
  have hearlier : ∀ earlier ∈ catalog.take 10,
      earlier.lexeme ('"' :: (text.toList ++ '"' :: rest)) = [] := by
    intro earlier hmem
    exact lexeme_cons_eq_nil (by revert earlier; decide)
  have hfound := find?_of_lexeme_eq_nil Kind.text [emoji, number, word, hash] hearlier
    (by simp [hlexeme])
  rwa [hlexeme] at hfound

/-- Digits in front of anything but another digit are found as a numeral. -/
theorem find?_catalog_number {digits : List Char} (hne : digits ≠ [])
    (hdigits : ∀ c ∈ digits, c.isDigit = true) {c : Char} (hc : c.isDigit = false)
    (rest : List Char) :
    find? catalog (digits ++ c :: rest) = some (.number, digits) := by
  have hnumber : number.lexeme (digits ++ c :: rest) = digits := takeWhile_append_cons hdigits hc rest
  obtain ⟨first, others, hfirst⟩ := List.exists_cons_of_ne_nil hne
  have hdigit : first.isDigit = true := hdigits first (by simp [hfirst])
  have hearlier : ∀ earlier ∈ catalog.take 12, earlier.lexeme (digits ++ c :: rest) = [] := by
    intro earlier hmem
    rw [hfirst]
    refine lexeme_cons_eq_nil ?_
    rw [beginningWith_of_isDigit hdigit]
    revert earlier
    decide
  have hfound := find?_of_lexeme_eq_nil number [word, hash] hearlier (by rwa [hnumber])
  rwa [hnumber] at hfound

end Kind

end EmojiScript
