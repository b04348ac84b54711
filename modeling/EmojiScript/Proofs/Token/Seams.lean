import EmojiScript.Proofs.Token.Names
import EmojiScript.Token.Basic
import Mathlib.Data.List.TakeWhile

namespace EmojiScript

/-!
# Lexemes at a seam

Where a text is cut behind a lexeme, the lexeme is found on its own, and it is found in front of
whatever else stands there unless it runs on into it.  Runs of blanks, digits and letters run on
into the same characters, and no other lexeme runs on at all: a keyword that is cut off is a run of
letters itself.

* `runsOn` — the characters into which a lexeme runs on.
* `find?_alone` — a lexeme on its own.
* `find?_append_iff`, `find?_cut` — a lexeme in front of more text, and of less.
* `runsOn_iff_needsGap` — which kinds run together.
* `Token.Scannable` — a token that is found where it stands alone.
-/

namespace Kind

variable {kind found next : Kind} {order : List Kind} {lexeme text more rest : List Char} {c : Char}

/-! ### On its own -/

theorem takeWhile_eq_nil_of_append {p : Char → Bool} (h : (text ++ more).takeWhile p = []) :
    text.takeWhile p = [] := by
  cases text with
  | nil => rfl
  | cons c rest =>
    by_cases hc : p c = true
    · simp [hc] at h
    · exact List.takeWhile_cons_of_neg hc

/-- A kind that accepts nothing accepts nothing where the text is cut. -/
theorem lexeme_eq_nil_of_append (h : kind.lexeme (text ++ more) = []) : kind.lexeme text = [] := by
  by_contra hne
  cases kind with
  | space | number | word => exact hne (takeWhile_eq_nil_of_append h)
  | text => exact hne ((quoted_append hne more).symm.trans h)
  | emoji => exact hne ((glyph_append hne more).symm.trans h)
  | _ => exact hne ((literal_append hne more).symm.trans h)

theorem literal_literal (spelling rest : List Char) :
    literal spelling (literal spelling rest) = literal spelling rest := by
  unfold literal
  split
  next => simp
  next h => split <;> simp_all

/-- A lexeme is accepted whole on its own. -/
theorem lexeme_lexeme (kind : Kind) (rest : List Char) :
    kind.lexeme (kind.lexeme rest) = kind.lexeme rest := by
  by_cases hne : kind.lexeme rest = []
  · rw [hne, lexeme_nil]
  cases kind with
  | space | number | word => exact List.takeWhile_idem
  | text =>
    obtain ⟨inner, hquoted, hinner⟩ := exists_inner_of_quoted hne
    show quoted (quoted rest) = quoted rest
    rw [hquoted]
    exact quoted_cons hinner []
  | emoji =>
    show glyph (glyph rest) = glyph rest
    cases rest with
    | nil => rfl
    | cons c rest =>
      by_cases hlarge : 0x10000 ≤ c.toNat
      · simp [glyph, hlarge]
      · simp [glyph, hlarge]
  | _ => exact literal_literal _ rest

/-- **A lexeme on its own.** It is found where the text behind it is cut off. -/
theorem find?_alone (h : find? order (lexeme ++ more) = some (kind, lexeme)) :
    find? order lexeme = some (kind, lexeme) := by
  obtain ⟨-, hlexeme, -⟩ := find?_eq_some h
  refine find?_of_lexeme_eq h (fun _ hkind => lexeme_eq_nil_of_append hkind) ?_
  rw [hlexeme, lexeme_lexeme]

/-! ### In front of more text -/

/-- The characters that a lexeme of this kind takes in as well. -/
def runsOn : Kind → Char → Bool
  | space, c => isBlank c
  | number, c => c.isDigit
  | word, c => c.isLower
  | _, _ => false

/-- A run in front of other text is the whole run unless the text runs on. -/
theorem takeWhile_append_iff {p : Char → Bool} (htext : text.takeWhile p = text) :
    (text ++ more).takeWhile p = text ↔ ∀ c ∈ more.head?, p c = false := by
  have hrun : (text ++ more).takeWhile p = text ++ more.takeWhile p :=
    List.takeWhile_append_of_pos (List.takeWhile_eq_self_iff.mp htext)
  rw [hrun, List.append_right_eq_self]
  cases more with
  | nil => simp
  | cons c more => simp [List.takeWhile_cons]

/-- A lexeme is the same in front of more text exactly if it does not run on into it. -/
theorem lexeme_append_iff (hne : text ≠ []) (htext : kind.lexeme text = text) :
    kind.lexeme (text ++ more) = text ↔ ∀ c ∈ more.head?, kind.runsOn c = false := by
  have hnever : kind.lexeme (text ++ more) = kind.lexeme text →
      (kind.lexeme (text ++ more) = text ↔ ∀ c ∈ more.head?, false = false) := by
    intro h
    simp [h, htext]
  cases kind with
  | space | number | word => exact takeWhile_append_iff htext
  | text => exact hnever (quoted_append (fun h => hne (htext.symm.trans h)) more)
  | emoji => exact hnever (glyph_append (fun h => hne (htext.symm.trans h)) more)
  | _ => exact hnever (literal_append (fun h => hne (htext.symm.trans h)) more)

/-- A spelling that is cut off is a lexeme that runs on into the rest of it. -/
theorem literal_append_eq_nil_of_seam {spelling : List Char}
    (hpieces : ∀ piece ∈ spelling.inits, piece ≠ [] → found.lexeme piece = piece →
      (spelling.drop piece.length).head?.all found.runsOn = true)
    (hne : text ≠ []) (hfound : found.lexeme text = text)
    (hmore : ∀ c ∈ more.head?, found.runsOn c = false) (h : literal spelling text = []) :
    literal spelling (text ++ more) = [] := by
  by_contra hlonger
  obtain ⟨c, tail, rfl, hc⟩ := exists_of_literal_append h hlonger
  have hruns : found.runsOn c = true := by simpa using hpieces text (by simp) hne hfound
  exact absurd hruns (by simp [hmore c hc])

/-- A kind that accepts nothing accepts nothing in front of more text, where a lexeme is found that
does not run on into it. -/
theorem lexeme_append_eq_nil_of_seam (hne : text ≠ []) (hfound : found.lexeme text = text)
    (hmore : ∀ c ∈ more.head?, found.runsOn c = false) (h : kind.lexeme text = []) :
    kind.lexeme (text ++ more) = [] := by
  cases kind with
  | space | number | word => exact takeWhile_append_eq_nil hne h more
  | text =>
    have hfound' : found.lexeme text ≠ [] := hfound.symm ▸ hne
    exact quoted_append_eq_nil hfound' h more
  | emoji =>
    cases text with
    | nil => exact absurd rfl hne
    | cons c text => exact h
  | _ => exact literal_append_eq_nil_of_seam (by cases found <;> decide) hne hfound hmore h

/-- **A lexeme in front of more text** is found exactly if it does not run on into it. -/
theorem find?_append_iff (h : find? order lexeme = some (kind, lexeme)) :
    find? order (lexeme ++ more) = some (kind, lexeme) ↔ ∀ c ∈ more.head?, kind.runsOn c = false := by
  obtain ⟨-, hself, hne⟩ := find?_eq_some h
  constructor
  · intro hmore
    obtain ⟨-, hlonger, -⟩ := find?_eq_some hmore
    exact (lexeme_append_iff hne hself.symm).mp hlonger.symm
  · intro hmore
    exact find?_of_lexeme_eq h
      (fun _ hkind => lexeme_append_eq_nil_of_seam hne hself.symm hmore hkind)
      ((lexeme_append_iff hne hself.symm).mpr hmore)

/-- A lexeme is found as before where the text is cut further on. -/
theorem find?_cut (h : find? order (lexeme ++ (text ++ more)) = some (kind, lexeme)) :
    find? order (lexeme ++ text) = some (kind, lexeme) := by
  have halone := find?_alone h
  have hseam := (find?_append_iff halone).mp h
  refine (find?_append_iff halone).mpr fun c hc => hseam c ?_
  -- the lexeme runs on into the text by its first character only
  rw [List.head?_append, Option.mem_def.mp hc, Option.some_or, Option.mem_def]

/-! ### Kinds that run together -/

/-- Lexemes of these kinds run together where nothing stands between them. -/
def NeedsGap (kind next : Kind) : Prop :=
  (kind = number ∧ next = number) ∨ (kind = word ∧ next ∈ [print, ejprint, ejkey, word])

instance (kind next : Kind) : Decidable (NeedsGap kind next) := inferInstanceAs (Decidable (_ ∨ _))

theorem isDigit_iff_of_lexeme_ne_nil (h : kind.lexeme (c :: rest) ≠ []) :
    c.isDigit = true ↔ kind = number := by
  constructor
  · intro hdigit
    have hmem := mem_beginningWith h
    rw [beginningWith_of_isDigit hdigit] at hmem
    exact List.mem_singleton.mp hmem
  · rintro rfl
    by_contra hdigit
    exact h (List.takeWhile_cons_of_neg hdigit)

theorem isLower_iff_of_lexeme_ne_nil (h : kind.lexeme (c :: rest) ≠ []) :
    c.isLower = true ↔ kind ∈ [print, ejprint, ejkey, word] := by
  constructor
  · intro hlower
    have hmem := mem_beginningWith h
    rwa [beginningWith_of_isLower hlower] at hmem
  · intro hkind
    simp only [List.mem_cons, List.not_mem_nil, or_false] at hkind
    rcases hkind with rfl | rfl | rfl | rfl
    · exact eq_of_literal_ne_nil h ▸ rfl
    · exact eq_of_literal_ne_nil h ▸ rfl
    · exact eq_of_literal_ne_nil h ▸ rfl
    · by_contra hlower
      exact h (List.takeWhile_cons_of_neg hlower)

/-- A token runs on into the next one exactly if the two need a gap. -/
theorem runsOn_iff_needsGap (hkind : kind ≠ space) (h : next.lexeme (c :: rest) ≠ []) :
    kind.runsOn c = true ↔ NeedsGap kind next := by
  cases kind with
  | space => exact absurd rfl hkind
  | number => simpa [runsOn, NeedsGap] using isDigit_iff_of_lexeme_ne_nil h
  | word => simpa [runsOn, NeedsGap] using isLower_iff_of_lexeme_ne_nil h
  | _ => simp [runsOn, NeedsGap]

/-- A character that a lexeme takes in could have begun it. -/
theorem mem_beginningWith_of_runsOn (h : kind.runsOn c = true) : kind ∈ beginningWith c := by
  cases kind with
  | space => simp [beginningWith_of_isBlank h]
  | number => simp [beginningWith_of_isDigit h]
  | word => simp [beginningWith_of_isLower h]
  | _ => cases h

/-- No token runs on into a blank. -/
theorem runsOn_of_isBlank (hkind : kind ≠ space) (hc : isBlank c = true) :
    kind.runsOn c = false := by
  refine Bool.eq_false_iff.mpr fun h => ?_
  have hmem := mem_beginningWith_of_runsOn h
  rw [beginningWith_of_isBlank hc] at hmem
  exact hkind (List.mem_singleton.mp hmem)

/-- No token begins with a blank. -/
theorem eq_space_of_lexeme_ne_nil (hspace : space.lexeme (c :: rest) ≠ [])
    (h : kind.lexeme (c :: more) ≠ []) : kind = space := by
  have hblank : isBlank c = true := by
    by_contra hc
    exact hspace (List.takeWhile_cons_of_neg hc)
  have hmem := mem_beginningWith h
  rw [beginningWith_of_isBlank hblank] at hmem
  exact List.mem_singleton.mp hmem

end Kind

/-! ### Tokens -/

/-- A token that is found where its text stands alone. -/
structure Token.Scannable (token : Token) : Prop where
  find?_eq : Kind.find? Kind.catalog token.text.toList = some (token.kind, token.text.toList)
  ne_space : token.kind ≠ .space

/-- A token begins with a character that its kind may begin with. -/
theorem Token.Scannable.exists_cons {token : Token} (h : token.Scannable) :
    ∃ c rest, token.text.toList = c :: rest ∧ token.kind.lexeme (c :: rest) ≠ [] := by
  obtain ⟨_, hlexeme, hne⟩ := Kind.find?_eq_some h.find?_eq
  obtain ⟨c, rest, htext⟩ := List.exists_cons_of_ne_nil hne
  exact ⟨c, rest, htext, by rwa [← htext, ← hlexeme]⟩

end EmojiScript
