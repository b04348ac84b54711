import EmojiScript.Proofs.Text.Mark
import EmojiScript.Proofs.Text.Slice
import EmojiScript.Proofs.Token.Names

namespace EmojiScript

/-!
# The patterns of the kinds

Each kind has a pattern, which is told here apart from how a scanner looks for it: one spelling, a
run of characters of one class, one large character, or anything without a quote between two
quotes.  What is found at the front of a text is its longest beginning of that pattern.  It may be
cut off there, since it ends where a character ends; this is so too where it is found by its bytes,
for the byte of a quote is a part of no other character.

* `Kind.Accepts` — the pattern of a kind.
* `Kind.Longest` — the longest beginning of a text that has it.
* `Kind.matchLength?_eq_some_iff`, `Kind.matchLength?_eq_none_iff` — that is what is found.
* `Kind.matchLength?_text` — a text in quotes, found by its bytes.
-/

/-- A shorter beginning of a text takes no more bytes. -/
theorem utf8ByteSize_le_of_isPrefix {before chars : List Char} (h : before <+: chars) :
    (String.ofList before).utf8ByteSize ≤ (String.ofList chars).utf8ByteSize := by
  obtain ⟨more, rfl⟩ := h
  rw [String.ofList_append, String.utf8ByteSize_append]
  exact Nat.le_add_right _ _

namespace Kind

/-- The pattern of a kind. -/
def Accepts (kind : Kind) (chars : List Char) : Prop :=
  match kind with
  | space => chars ≠ [] ∧ ∀ c ∈ chars, isBlank c = true
  | print => chars = "print".toList
  | ejprint => chars = "ejprint".toList
  | ejkey => chars = "ejkey".toList
  | equals => chars = ['=']
  | plus => chars = ['+']
  | minus => chars = ['-']
  | openParen => chars = ['(']
  | closeParen => chars = [')']
  | semicolon => chars = [';']
  | text => ∃ inner, '"' ∉ inner ∧ chars = '"' :: (inner ++ ['"'])
  | emoji => ∃ c, 0x10000 ≤ c.toNat ∧ chars = [c]
  | number => chars ≠ [] ∧ ∀ c ∈ chars, c.isDigit = true
  | word => chars ≠ [] ∧ ∀ c ∈ chars, c.isLower = true
  | hash => chars = ['#']

variable {kind : Kind} {rest piece : List Char} {source : String} {length : Nat}

/-! ### What is found at the front of a text -/

/-- No pattern accepts nothing at all. -/
theorem Accepts.ne_nil (h : kind.Accepts piece) : piece ≠ [] := by
  rintro rfl
  cases kind with
  | space | number | word => exact h.1 rfl
  | text =>
    obtain ⟨_, _, hquoted⟩ := h
    cases hquoted
  | emoji =>
    obtain ⟨_, _, hglyph⟩ := h
    cases hglyph
  | _ => cases h

/-- A lexeme has the pattern of its kind. -/
theorem accepts_lexeme (hne : kind.lexeme rest ≠ []) : kind.Accepts (kind.lexeme rest) := by
  cases kind with
  | space | number | word => exact ⟨hne, List.all_eq_true.mp List.all_takeWhile⟩
  | text =>
    obtain ⟨inner, hquoted, hinner⟩ := exists_inner_of_quoted hne
    exact ⟨inner, hinner, hquoted⟩
  | emoji =>
    cases rest with
    | nil => exact absurd rfl hne
    | cons c rest =>
      by_cases hlarge : 0x10000 ≤ c.toNat
      · exact ⟨c, hlarge, if_pos hlarge⟩
      · exact absurd (if_neg hlarge) hne
  | _ => exact literal_eq_of_ne_nil hne

theorem literal_prefix (spelling : List Char) (more : List Char) :
    spelling <+: literal spelling (spelling ++ more) := by
  rw [literal, if_pos (List.isPrefixOf_iff_prefix.mpr (List.prefix_append _ _))]

theorem prefix_takeWhile {p : Char → Bool} (h : ∀ c ∈ piece, p c = true) (more : List Char) :
    piece <+: (piece ++ more).takeWhile p := by
  rw [List.takeWhile_append_of_pos h]
  exact List.prefix_append _ _

/-- Whatever begins a text and has the pattern of a kind begins its lexeme there. -/
theorem Accepts.prefix_lexeme (h : kind.Accepts piece) (hpiece : piece <+: rest) :
    piece <+: kind.lexeme rest := by
  obtain ⟨more, rfl⟩ := hpiece
  cases kind with
  | space | number | word => exact prefix_takeWhile h.2 more
  | text =>
    obtain ⟨inner, hinner, rfl⟩ := h
    have hquoted := quoted_cons hinner more
    simp only [List.cons_append, List.append_assoc, List.nil_append, lexeme]
    rw [hquoted]
  | emoji =>
    obtain ⟨c, hlarge, rfl⟩ := h
    simp [lexeme, glyph, hlarge]
  | _ =>
    subst h
    exact literal_prefix _ more

/-! ### Its length in bytes -/

theorem matchLength?_eq_some_iff_lexeme :
    kind.matchLength? source = some length ↔ kind.lexeme source.toList ≠ [] ∧
      (String.ofList (kind.lexeme source.toList)).utf8ByteSize = length := by
  unfold matchLength?
  cases kind.lexeme source.toList <;> simp

/-- The longest beginning of a text that has the pattern of a kind takes so many bytes. -/
def Longest (kind : Kind) (source : String) (length : Nat) : Prop :=
  ∃ before after, source = before ++ after ∧ kind.Accepts before.toList ∧
    before.utf8ByteSize = length ∧
    ∀ longer rest, source = longer ++ rest → kind.Accepts longer.toList →
      longer.utf8ByteSize ≤ length

theorem isPrefix_of_eq_append {before after : String} (h : source = before ++ after) :
    before.toList <+: source.toList := ⟨after.toList, by rw [h, String.toList_append]⟩

/-- What begins a text and has the pattern of a kind takes no more bytes than its lexeme. -/
theorem Accepts.utf8ByteSize_le {before after : String} (h : kind.Accepts before.toList)
    (hsource : source = before ++ after) :
    before.utf8ByteSize ≤ (String.ofList (kind.lexeme source.toList)).utf8ByteSize := by
  have hle := utf8ByteSize_le_of_isPrefix (h.prefix_lexeme (isPrefix_of_eq_append hsource))
  rwa [String.ofList_toList] at hle

theorem eq_lexeme_append (kind : Kind) (source : String) :
    source = String.ofList (kind.lexeme source.toList) ++
      String.ofList (source.toList.drop (kind.lexeme source.toList).length) := by
  rw [← String.ofList_append, lexeme_append_drop, String.ofList_toList]

/-- **What is found** is the longest beginning of a text that has the pattern. -/
theorem matchLength?_eq_some_iff : kind.matchLength? source = some length ↔
    kind.Longest source length := by
  rw [matchLength?_eq_some_iff_lexeme]
  constructor
  · rintro ⟨hne, rfl⟩
    refine ⟨_, _, kind.eq_lexeme_append source, ?_, rfl, fun longer rest hlonger haccepts => ?_⟩
    · rw [String.toList_ofList]
      exact accepts_lexeme hne
    · exact haccepts.utf8ByteSize_le hlonger
  · rintro ⟨before, after, hsource, haccepts, rfl, hlongest⟩
    have hbegins := haccepts.prefix_lexeme (isPrefix_of_eq_append hsource)
    have hne : kind.lexeme source.toList ≠ [] := fun hnil =>
      haccepts.ne_nil (List.prefix_nil.mp (hnil ▸ hbegins))
    refine ⟨hne, Nat.le_antisymm ?_ (haccepts.utf8ByteSize_le hsource)⟩
    -- the lexeme has the pattern itself, and so it is no longer than the longest one
    refine hlongest _ _ (kind.eq_lexeme_append source) ?_
    rw [String.toList_ofList]
    exact accepts_lexeme hne

/-- Nothing is found where no beginning of a text has the pattern. -/
theorem matchLength?_eq_none_iff : kind.matchLength? source = none ↔
    ∀ before after, source = before ++ after → ¬ kind.Accepts before.toList := by
  constructor
  · intro hnone before after hsource haccepts
    have hbegins := haccepts.prefix_lexeme (isPrefix_of_eq_append hsource)
    cases hlexeme : kind.lexeme source.toList with
    | nil => exact haccepts.ne_nil (List.prefix_nil.mp (hlexeme ▸ hbegins))
    | cons c rest => simp [matchLength?, hlexeme] at hnone
  · intro hnone
    cases hfound : kind.matchLength? source with
    | none => rfl
    | some length =>
      obtain ⟨before, after, hsource, haccepts, _⟩ := matchLength?_eq_some_iff.mp hfound
      exact absurd haccepts (hnone before after hsource)

/-- What is found is not empty and may be cut off. -/
theorem Longest.pos_and_isBoundary (h : kind.Longest source length) :
    0 < length ∧ IsBoundary source length := by
  obtain ⟨before, after, hsource, haccepts, rfl, _⟩ := h
  have hne : before ≠ "" := fun hempty => haccepts.ne_nil (by simp [hempty])
  refine ⟨Nat.pos_of_ne_zero (mt String.utf8ByteSize_eq_zero_iff.mp hne), ?_⟩
  exact isBoundary_iff.mpr ⟨before, after, hsource, rfl⟩

/-! ### Quotes by their bytes -/

/-- The bytes of a text in quotes at the front of these: it ends with the next byte of a quote. -/
def quotedLength? : List UInt8 → Option Nat
  | [] => none
  | first :: rest => if first = 0x22 then (rest.idxOf? 0x22).map (· + 2) else none

theorem quote_mem_flatMap_iff {chars : List Char} :
    0x22 ∈ chars.flatMap String.utf8EncodeChar ↔ '"' ∈ chars := by
  have hascii : '"'.toNat < 0x80 := by decide
  have hcount : (chars.flatMap String.utf8EncodeChar).count 0x22 = chars.count '"' :=
    count_flatMap_utf8EncodeChar hascii chars
  rw [← List.count_pos_iff, hcount, List.count_pos_iff]

theorem length_flatMap_utf8EncodeChar (chars : List Char) :
    (chars.flatMap String.utf8EncodeChar).length = (String.ofList chars).utf8ByteSize := by
  have hbytes := toList_toUTF8 (String.ofList chars)
  rw [String.toList_ofList] at hbytes
  rw [← hbytes, Array.length_toList, ByteArray.size_data, String.toUTF8_eq_toByteArray,
    String.size_toByteArray]

/-- The first of some bytes is looked for where it stands behind others. -/
theorem idxOf?_append_cons {byte : UInt8} {before : List UInt8} (h : byte ∉ before)
    (after : List UInt8) : (before ++ byte :: after).idxOf? byte = some before.length := by
  induction before with
  | nil => simp [List.idxOf?_cons]
  | cons first before ih =>
    obtain ⟨hfirst, hbefore⟩ := not_or.mp (List.mem_cons.not.mp h)
    simp [List.idxOf?_cons, Ne.symm hfirst, ih hbefore]

/-- A quote that is closed is closed by the next byte of a quote. -/
theorem quotedLength?_closed {inner : List Char} (h : '"' ∉ inner) (after : List Char) :
    quotedLength? (('"' :: (inner ++ '"' :: after)).flatMap String.utf8EncodeChar) =
      some (String.ofList ('"' :: (inner ++ ['"']))).utf8ByteSize := by
  have hinner : 0x22 ∉ inner.flatMap String.utf8EncodeChar := mt quote_mem_flatMap_iff.mp h
  have hquote : String.utf8EncodeChar '"' = [0x22] := by decide
  rw [← length_flatMap_utf8EncodeChar]
  simp only [List.flatMap_cons, List.flatMap_append, List.flatMap_nil, hquote,
    List.singleton_append, List.append_nil, List.length_cons, List.length_append, List.length_nil]
  rw [quotedLength?, if_pos rfl, idxOf?_append_cons hinner]
  rfl

/-- A quote that is not closed has no byte of a quote behind it. -/
theorem quotedLength?_open {rest : List Char} (h : '"' ∉ rest) :
    quotedLength? (('"' :: rest).flatMap String.utf8EncodeChar) = none := by
  have hrest : 0x22 ∉ rest.flatMap String.utf8EncodeChar := mt quote_mem_flatMap_iff.mp h
  have hquote : String.utf8EncodeChar '"' = [0x22] := by decide
  rw [List.flatMap_cons, hquote, List.singleton_append, quotedLength?, if_pos rfl,
    List.idxOf?_eq_none_iff.mpr hrest, Option.map_none]

/-- No other character begins with the byte of a quote. -/
theorem quotedLength?_other {c : Char} (h : c ≠ '"') (rest : List Char) :
    quotedLength? ((c :: rest).flatMap String.utf8EncodeChar) = none := by
  have hnone : 0x22 ∉ String.utf8EncodeChar c := by
    intro hmem
    have hsingle : '"' ∈ [c] := quote_mem_flatMap_iff.mp (by simpa using hmem)
    exact h (List.mem_singleton.mp hsingle).symm
  rw [List.flatMap_cons]
  cases hbytes : String.utf8EncodeChar c with
  | nil =>
    have hsize : (String.utf8EncodeChar c).length = c.utf8Size := String.length_utf8EncodeChar c
    rw [hbytes] at hsize
    exact absurd hsize.symm (Nat.ne_of_gt c.utf8Size_pos)
  | cons first others =>
    have hfirst : first ≠ 0x22 := by
      rintro rfl
      exact hnone (hbytes ▸ List.mem_cons_self)
    rw [List.cons_append, quotedLength?, if_neg hfirst]

/-- **A text in quotes by its bytes.** It is found where its closing quote is looked for among the
bytes. -/
theorem matchLength?_text (source : String) :
    Kind.text.matchLength? source = quotedLength? source.toUTF8.data.toList := by
  rw [toList_toUTF8]
  cases hchars : source.toList with
  | nil => simp [matchLength?, hchars, quotedLength?]
  | cons c rest =>
    by_cases hquote : c = '"'
    · subst hquote
      by_cases hclosed : '"' ∈ rest
      · obtain ⟨inner, after, rfl, hinner⟩ := List.eq_append_cons_of_mem hclosed
        rw [quotedLength?_closed hinner after]
        refine matchLength?_eq_some_iff_lexeme.mpr ?_
        rw [hchars]
        simp [lexeme, quoted_cons hinner after]
      · rw [quotedLength?_open hclosed, matchLength?, hchars]
        simp [lexeme, quoted, hclosed]
    · rw [quotedLength?_other hquote, matchLength?, hchars]
      simp [lexeme, quoted, hquote]

end Kind

end EmojiScript
