import EmojiScript.Proofs.Scanner.Append
import EmojiScript.Proofs.Scanner.Tiling
import EmojiScript.Proofs.Token.Names
import Mathlib.Algebra.Ring.Parity

namespace EmojiScript

/-!
# Texts that can be scanned

Which texts have tokens can be told from their characters alone, without any of the kinds.  Quotes
go in pairs from left to right; anything may stand between the two quotes of a pair, and outside the
pairs only blanks, lowercase letters, digits, seven marks and characters above the Basic
Multilingual Plane may stand.  The first character that breaks this is the one that is reported.

* `IsBare`, `Enclosed` — what may stand outside quotes, and what stands in a pair of them.
* `Regular` — a text of bare characters and closed pairs of quotes, from left to right.
* `Kind.regular_of_find?`, `not_isBare_of_find?` — what is scanned is regular, and a scan ends only
  where nothing regular follows.
* `tokenize_iff_stray` — whole texts.
-/

/-- A character that may stand outside quotes. -/
def IsBare (c : Char) : Prop :=
  isBlank c = true ∨ c.isLower = true ∨ c.isDigit = true ∨
    c ∈ ['=', '+', '-', '(', ')', ';', '#'] ∨ 0x10000 ≤ c.toNat

instance (c : Char) : Decidable (IsBare c) := inferInstanceAs (Decidable (_ ∨ _))

/-- A quote is never bare. -/
theorem ne_quote_of_isBare {c : Char} (h : IsBare c) : c ≠ '"' := by
  rintro rfl
  revert h
  decide

/-- Two quotes of a text are a pair, the first behind `outer` and the second behind `inner` more:
the quotes before them go in pairs themselves, and there is none between them. -/
structure QuotePair (text outer inner : List Char) : Prop where
  stands : ∃ after, text = outer ++ '"' :: (inner ++ '"' :: after)
  even : Even (outer.count '"')
  next : '"' ∉ inner

/-- The character with this index is one of a pair of quotes, or stands between the two. -/
def Enclosed (text : List Char) (index : Nat) : Prop :=
  ∃ outer inner, QuotePair text outer inner ∧ outer.length ≤ index ∧
    index < outer.length + inner.length + 2

/-- The first character that may not stand where it does: it stands outside pairs of quotes and is
not bare.  A last quote without a partner is such a character. -/
structure Stray (text : List Char) (index : Nat) (found : Char) : Prop where
  at_index : text[index]? = some found
  not_enclosed : ¬ Enclosed text index
  not_bare : ¬ IsBare found
  last_quote : found = '"' → '"' ∉ text.drop (index + 1)
  first : ∀ earlier c, earlier < index → text[earlier]? = some c →
    Enclosed text earlier ∨ IsBare c

/-! ### Pairs of quotes -/

variable {text before inner rest : List Char} {index : Nat} {found c : Char}

/-- More text behind a text leaves its pairs of quotes as they are. -/
theorem Enclosed.append (h : Enclosed text index) (more : List Char) :
    Enclosed (text ++ more) index := by
  obtain ⟨outer, inner, ⟨⟨after, rfl⟩, heven, hnext⟩, hindex⟩ := h
  exact ⟨outer, inner, ⟨⟨after ++ more, by simp⟩, heven, hnext⟩, hindex⟩

/-- Text in which all quotes go in pairs may be put in front. -/
theorem Enclosed.behind (h : Enclosed text index) (heven : Even (before.count '"')) :
    Enclosed (before ++ text) (before.length + index) := by
  obtain ⟨outer, inner, ⟨⟨after, rfl⟩, houter, hnext⟩, hfrom, hto⟩ := h
  refine ⟨before ++ outer, inner, ⟨⟨after, by simp⟩, ?_, hnext⟩, ?_, ?_⟩
  · rw [List.count_append]
    exact heven.add houter
  · rw [List.length_append]
    omega
  · rw [List.length_append]
    omega

/-- The first two quotes of a text that begins with a quote are a pair. -/
theorem enclosed_of_lt (hnext : '"' ∉ inner) (hindex : index < inner.length + 2) :
    Enclosed ('"' :: (inner ++ '"' :: rest)) index := by
  refine ⟨[], inner, ⟨⟨rest, rfl⟩, by simp, hnext⟩, Nat.zero_le _, ?_⟩
  simpa using hindex

/-- Behind quotes that go in pairs, a character is enclosed only if it opens a new pair. -/
theorem not_enclosed_of_even (heven : Even (before.count '"'))
    (hquote : found = '"' → '"' ∉ rest) : ¬ Enclosed (before ++ found :: rest) before.length := by
  rintro ⟨outer, inner, ⟨⟨after, hstands⟩, houter, hnext⟩, hfrom, hto⟩
  rcases Scanner.append_eq_append_cons hstands.symm with ⟨more, hbefore, hbehind⟩ | ⟨more, hlonger⟩
  · cases more with
    | nil =>
      -- the pair begins with the character itself and is closed in the rest
      obtain ⟨hfound, hrest⟩ := List.cons.inj hbehind
      exact hquote hfound.symm (hrest ▸ List.mem_append_right inner List.mem_cons_self)
    | cons opening more =>
      -- the pair has its first quote alone in the text before
      obtain ⟨rfl, hinner⟩ := List.cons.inj hbehind
      have hbegins : more <+: inner := by
        refine List.prefix_of_prefix_length_le ⟨found :: rest, hinner.symm⟩ ⟨_, rfl⟩ ?_
        simp only [hbefore, List.length_append, List.length_cons] at hto
        omega
      have hnone : more.count '"' = 0 :=
        List.count_eq_zero.mpr fun hmem => hnext (hbegins.mem hmem)
      rw [hbefore, List.count_append, List.count_cons_self, hnone] at heven
      grind
  · rw [hlonger, List.length_append, List.length_cons] at hfrom
    omega

/-! ### Regular texts -/

/-- From left to right, the text is of bare characters and pairs of quotes with what they enclose. -/
inductive Regular : List Char → Prop where
  | nil : Regular []
  | bare {c : Char} {rest : List Char} : IsBare c → Regular rest → Regular (c :: rest)
  | quoted {inner rest : List Char} : '"' ∉ inner → Regular rest →
      Regular ('"' :: (inner ++ '"' :: rest))

theorem Regular.append {more : List Char} (h : Regular text) (hmore : Regular more) :
    Regular (text ++ more) := by
  induction h with
  | nil => exact hmore
  | bare hc _ ih => exact .bare hc ih
  | quoted hinner _ ih => simpa using Regular.quoted hinner ih

theorem regular_of_isBare (h : ∀ c ∈ text, IsBare c) : Regular text := by
  induction text with
  | nil => exact .nil
  | cons c rest ih =>
    obtain ⟨hc, hrest⟩ := List.forall_mem_cons.mp h
    exact .bare hc (ih hrest)

/-- The quotes of a regular text go in pairs. -/
theorem Regular.even_count (h : Regular text) : Even (text.count '"') := by
  induction h with
  | nil => simp
  | bare hc _ ih => rwa [List.count_cons_of_ne (ne_quote_of_isBare hc)]
  | @quoted inner rest hinner _ ih =>
    rw [List.count_cons_self, List.count_append, List.count_cons_self,
      List.count_eq_zero.mpr hinner]
    grind

/-- What does not stand in a pair of quotes of a regular text is bare. -/
theorem Regular.enclosed_or_isBare (h : Regular text) :
    ∀ index c, text[index]? = some c → Enclosed text index ∨ IsBare c := by
  induction h with
  | nil => simp
  | @bare first rest hfirst _ ih =>
    intro index c hc
    cases index with
    | zero =>
      obtain rfl : first = c := by simpa using hc
      exact .inr hfirst
    | succ index =>
      refine (ih index c hc).imp_left fun henclosed => ?_
      have heven : Even ([first].count '"') := by simp [ne_quote_of_isBare hfirst]
      have hbehind := henclosed.behind heven
      rwa [List.length_singleton, Nat.add_comm] at hbehind
  | @quoted inner rest hinner _ ih =>
    intro index c hc
    by_cases hindex : index < inner.length + 2
    · exact .inl (enclosed_of_lt hinner hindex)
    · -- the character stands behind this pair
      obtain ⟨behind, rfl⟩ := Nat.exists_eq_add_of_le (Nat.le_of_not_lt hindex)
      have hsplit : '"' :: (inner ++ '"' :: rest) = ('"' :: (inner ++ ['"'])) ++ rest := by simp
      have hlength : ('"' :: (inner ++ ['"'])).length = inner.length + 2 := by simp
      rw [hsplit, ← hlength] at hc ⊢
      rw [List.getElem?_append_right (Nat.le_add_right _ _), Nat.add_sub_cancel_left] at hc
      refine (ih behind c hc).imp_left fun henclosed => henclosed.behind ?_
      exact (Regular.quoted hinner .nil).even_count

/-! ### Scanning -/

/-- What is found is regular. -/
theorem Kind.regular_of_find? {order : List Kind} {kind : Kind} {lexeme : List Char}
    (h : find? order rest = some (kind, lexeme)) : Regular lexeme := by
  obtain ⟨_, hlexeme, hne⟩ := find?_eq_some h
  have hrun : ∀ p : Char → Bool, (∀ c, p c = true → IsBare c) → Regular (rest.takeWhile p) := by
    intro p hp
    exact regular_of_isBare fun c hc => hp c (List.all_eq_true.mp List.all_takeWhile c hc)
  have hliteral : ∀ spelling : List Char, spelling.all (decide <| IsBare ·) = true →
      lexeme = literal spelling rest → Regular lexeme := by
    rintro spelling hspelling rfl
    rw [literal_eq_of_ne_nil hne]
    exact regular_of_isBare fun c hc => of_decide_eq_true (List.all_eq_true.mp hspelling c hc)
  cases kind with
  | space => exact hlexeme ▸ hrun _ fun c hc => .inl hc
  | word => exact hlexeme ▸ hrun _ fun c hc => .inr (.inl hc)
  | number => exact hlexeme ▸ hrun _ fun c hc => .inr (.inr (.inl hc))
  | text =>
    obtain ⟨inner, rfl, hinner⟩ := exists_inner_of_find? h
    exact .quoted hinner .nil
  | emoji =>
    cases rest with
    | nil => exact absurd hlexeme hne
    | cons c rest =>
      by_cases hlarge : 0x10000 ≤ c.toNat
      · rw [hlexeme, Kind.lexeme, glyph, if_pos hlarge]
        exact .bare (.inr (.inr (.inr (.inr hlarge)))) .nil
      · exact absurd (hlexeme.trans (if_neg hlarge)) hne
  | _ => exact hliteral _ (by decide) hlexeme

/-- A scan goes over regular text. -/
theorem Scanner.Gives.exists_regular {order : List Kind} {scanner scanner' : Scanner}
    {tokens : List Token} (h : Gives order scanner tokens scanner') :
    ∃ read, scanner.rest = read ++ scanner'.rest ∧ Regular read := by
  induction h with
  | stop => exact ⟨[], rfl, .nil⟩
  | blanks hfind _ ih | token hfind _ _ ih =>
    obtain ⟨read, hread, hregular⟩ := ih
    refine ⟨_, ?_, (Kind.regular_of_find? hfind).append hregular⟩
    rw [rest_eq_of_find? hfind, hread, List.append_assoc]

/-- Where no token begins stands a character that is not bare, and if it is a quote, then it is the
last one. -/
theorem not_isBare_of_find? (h : Kind.find? Kind.catalog (found :: rest) = none) :
    ¬ IsBare found ∧ (found = '"' → '"' ∉ rest) := by
  have hnone : ∀ kind : Kind, kind.lexeme (found :: rest) = [] :=
    fun kind => Kind.find?_eq_none_iff.mp h kind (Kind.mem_catalog kind)
  constructor
  · rintro (hblank | hlower | hdigit | hmark | hlarge)
    · simpa [Kind.lexeme, hblank] using hnone .space
    · simpa [Kind.lexeme, hlower] using hnone .word
    · simpa [Kind.lexeme, hdigit] using hnone .number
    · simp only [List.mem_cons, List.not_mem_nil, or_false] at hmark
      rcases hmark with rfl | rfl | rfl | rfl | rfl | rfl | rfl
      · cases hnone .equals
      · cases hnone .plus
      · cases hnone .minus
      · cases hnone .openParen
      · cases hnone .closeParen
      · cases hnone .semicolon
      · cases hnone .hash
    · simpa [Kind.lexeme, Kind.glyph, hlarge] using hnone .emoji
  · rintro rfl hclosed
    simpa [Kind.lexeme, Kind.quoted, hclosed] using hnone .text

/-! ### Whole texts -/

/-- A regular text in front of a character with which no token begins ends at a stray character. -/
theorem Regular.stray (hbefore : Regular before) (hbare : ¬ IsBare found)
    (hquote : found = '"' → '"' ∉ rest) :
    Stray (before ++ found :: rest) before.length found where
  at_index := by simp
  not_enclosed := not_enclosed_of_even hbefore.even_count hquote
  not_bare := hbare
  last_quote := by simpa using hquote
  first := by
    intro earlier c hearlier hc
    rw [List.getElem?_append_left hearlier] at hc
    exact (hbefore.enclosed_or_isBare earlier c hc).imp_left fun h => h.append _

/-- There is one first stray character. -/
theorem Stray.unique {other : Nat} {c : Char} (h : Stray text index found)
    (hother : Stray text other c) : index = other ∧ found = c := by
  have hindex : index = other := by
    rcases Nat.lt_trichotomy index other with hlt | heq | hlt
    · exact absurd (hother.first index found hlt h.at_index) (not_or.mpr ⟨h.not_enclosed, h.not_bare⟩)
    · exact heq
    · exact absurd (h.first other c hlt hother.at_index)
        (not_or.mpr ⟨hother.not_enclosed, hother.not_bare⟩)
  subst hindex
  exact ⟨rfl, Option.some.inj (h.at_index.symm.trans hother.at_index)⟩

/-- The fault of a character with which no token begins. -/
def strayFault (text : List Char) (index : Nat) (found : Char) : Fault :=
  .lex (Location.start.after (String.ofList (text.take index))) found

/-- A text either is regular, and has tokens, or has a stray character, which is its fault. -/
theorem regular_or_stray (source : String) :
    (Regular source.toList ∧ ∃ tokens, tokenize source = .ok tokens) ∨
      ∃ index found, Stray source.toList index found ∧
        tokenize source = .error (strayFault source.toList index found) := by
  obtain ⟨scanner', hgives, hend⟩ := Scanner.gives_collect source
  obtain ⟨read, hread, hregular⟩ := hgives.exists_regular
  rw [Scanner.rest_ofString] at hread
  generalize (Scanner.ofString source).collect.1 = tokens at hgives
  generalize (Scanner.ofString source).collect.2 = fault? at hend
  cases fault? with
  | none =>
    have hempty : scanner'.rest = [] := hend
    rw [hempty, List.append_nil] at hread
    exact .inl ⟨hread ▸ hregular, tokens, tokenize_of_completes ⟨scanner', hgives, hend⟩⟩
  | some fault =>
    have hfault : tokenize source = .error fault := tokenize_of_completes ⟨scanner', hgives, hend⟩
    obtain ⟨found, after, hfound, hfind, rfl⟩ := hend
    rw [hfound] at hread hfind
    obtain ⟨hbare, hquote⟩ := not_isBare_of_find? hfind
    refine .inr ⟨read.length, found, hread ▸ hregular.stray hbare hquote, ?_⟩
    -- the scan ends behind what it has read
    obtain ⟨read', hread', hlocation⟩ := hgives.exists_read
    rw [Scanner.rest_ofString, hread, hfound] at hread'
    rw [hfault, hlocation, strayFault, hread, List.take_left, List.append_cancel_right hread']
    rfl

/-- **Texts that can be scanned.** A text has tokens exactly if its quotes are even in number and
every character outside pairs of quotes is bare.  Its fault is that of its first stray character. -/
theorem tokenize_iff_stray (source : String) :
    ((∃ tokens, tokenize source = .ok tokens) ↔
      Even (source.toList.count '"') ∧
        ∀ index c, source.toList[index]? = some c → ¬ Enclosed source.toList index → IsBare c) ∧
    ∀ fault, tokenize source = .error fault ↔
      ∃ index found, Stray source.toList index found ∧
        fault = strayFault source.toList index found := by
  rcases regular_or_stray source with ⟨hregular, tokens, htokens⟩ | ⟨index, found, hstray, hfault⟩
  · have hall := hregular.enclosed_or_isBare
    refine ⟨⟨?_, fun _ => ⟨tokens, htokens⟩⟩, fun fault => ?_⟩
    · exact fun _ => ⟨hregular.even_count, fun index c hc => (hall index c hc).resolve_left⟩
    · rw [htokens]
      constructor
      · intro h
        cases h
      · rintro ⟨index, found, hstray, _⟩
        exact absurd (hall index found hstray.at_index)
          (not_or.mpr ⟨hstray.not_enclosed, hstray.not_bare⟩)
  · refine ⟨⟨?_, ?_⟩, fun fault => ?_⟩
    · rintro ⟨tokens, htokens⟩
      rw [hfault] at htokens
      cases htokens
    · rintro ⟨_, hall⟩
      exact absurd (hall index found hstray.at_index hstray.not_enclosed) hstray.not_bare
    · rw [hfault, Except.error.injEq]
      constructor
      · rintro rfl
        exact ⟨index, found, hstray, rfl⟩
      · rintro ⟨other, c, hother, rfl⟩
        obtain ⟨rfl, rfl⟩ := hstray.unique hother
        rfl

end EmojiScript
