import EmojiScript.Token.Lexeme
import Mathlib.Data.List.Infix

namespace EmojiScript.Kind

/-!
# Lexemes in a longer text

More text behind a text changes nothing at its front, once a token has been found there that ends
before the text does.  No kind that accepted nothing accepts something then: a keyword that is cut
off at the end of the text would have been read up to that end as a word, and a quote that is never
closed begins no token at all.

* `lexeme_append` — the kind that was found.
* `lexeme_append_eq_nil` — kinds that accepted nothing.
* `find?_append` — what is found.
-/

variable {kind found : Kind} {order : List Kind} {rest : List Char}

@[simp] theorem lexeme_nil (kind : Kind) : kind.lexeme [] = [] := by
  cases kind <;> rfl

@[simp] theorem find?_nil (order : List Kind) : find? order [] = none := by
  simp [find?_eq_none_iff]

theorem find?_cons_of_eq_nil (h : kind.lexeme rest = []) :
    find? (kind :: order) rest = find? order rest := by
  simp [find?, h]

theorem find?_cons_of_ne_nil (h : kind.lexeme rest ≠ []) :
    find? (kind :: order) rest = some (kind, kind.lexeme rest) := by
  obtain ⟨c, cs, hlexeme⟩ := List.exists_cons_of_ne_nil h
  simp [find?, hlexeme]

/-! ### The kind that was found -/

/-- A run that does not reach the end of a text stays as it is. -/
theorem takeWhile_append_of_ne {p : Char → Bool} (h : rest.takeWhile p ≠ rest)
    (more : List Char) : (rest ++ more).takeWhile p = rest.takeWhile p := by
  have hlength : (rest.takeWhile p).length ≠ rest.length :=
    fun heq => h ((List.takeWhile_prefix p).eq_of_length heq)
  rw [List.takeWhile_append, if_neg hlength]

/-- A spelling is accepted whole. -/
theorem literal_eq_of_ne_nil {spelling : List Char} (h : literal spelling rest ≠ []) :
    literal spelling rest = spelling := by
  unfold literal at h ⊢
  split
  next => rfl
  next hnot => exact absurd (if_neg hnot) h

theorem literal_append {spelling : List Char} (h : literal spelling rest ≠ [])
    (more : List Char) : literal spelling (rest ++ more) = literal spelling rest := by
  have hprefix : spelling.isPrefixOf rest = true := by
    by_contra hnot
    exact h (if_neg hnot)
  have hlonger : spelling.isPrefixOf (rest ++ more) = true :=
    List.isPrefixOf_iff_prefix.mpr ((List.isPrefixOf_iff_prefix.mp hprefix).trans
      (List.prefix_append rest more))
  rw [literal, literal, if_pos hprefix, if_pos hlonger]

theorem quoted_append (h : quoted rest ≠ []) (more : List Char) :
    quoted (rest ++ more) = quoted rest := by
  cases rest with
  | nil => exact absurd rfl h
  | cons c rest =>
    by_cases hquote : c = '"'
    · subst hquote
      have hclosed : '"' ∈ rest := by
        by_contra hopen
        exact h (if_neg hopen)
      have hends : rest.takeWhile (· ≠ '"') ≠ rest := by
        intro hall
        have hinner := List.all_eq_true.mp List.all_takeWhile '"' (hall.symm ▸ hclosed)
        simp at hinner
      rw [List.cons_append, quoted, quoted, if_pos hclosed,
        if_pos (List.mem_append_left more hclosed), takeWhile_append_of_ne hends]
    · exact absurd (by simp [quoted, hquote]) h

theorem glyph_append (h : glyph rest ≠ []) (more : List Char) :
    glyph (rest ++ more) = glyph rest := by
  cases rest with
  | nil => exact absurd rfl h
  | cons c rest => rfl

/-- A lexeme that ends before the text does stays as it is in a longer text. -/
theorem lexeme_append (hne : kind.lexeme rest ≠ []) (hends : kind.lexeme rest ≠ rest)
    (more : List Char) : kind.lexeme (rest ++ more) = kind.lexeme rest := by
  cases kind with
  | space | number | word => exact takeWhile_append_of_ne hends more
  | text => exact quoted_append hne more
  | emoji => exact glyph_append hne more
  | _ => exact literal_append hne more

/-! ### Kinds that accept nothing -/

/-- A spelling that only more text completes goes on behind the text as the rest of it does. -/
theorem exists_of_literal_append {spelling more : List Char} (h : literal spelling rest = [])
    (hlonger : literal spelling (rest ++ more) ≠ []) :
    ∃ c tail, spelling = rest ++ c :: tail ∧ more.head? = some c := by
  have hprefix : spelling <+: rest ++ more := by
    by_contra hnot
    exact hlonger (if_neg (mt List.isPrefixOf_iff_prefix.mp hnot))
  have hspelling : spelling ≠ [] := literal_eq_of_ne_nil hlonger ▸ hlonger
  have hnot : ¬ spelling <+: rest := by
    intro hwhole
    rw [literal, if_pos (List.isPrefixOf_iff_prefix.mpr hwhole)] at h
    exact hspelling h
  obtain ⟨tail, rfl⟩ :=
    (List.prefix_or_prefix_of_prefix hprefix (List.prefix_append rest more)).resolve_left hnot
  cases tail with
  | nil => exact absurd (by simp) hnot
  | cons c tail =>
    obtain ⟨behind, rfl⟩ := (List.prefix_append_right_inj rest).mp hprefix
    exact ⟨c, tail, rfl, rfl⟩

/-- A token that ends before the text does ends before a spelling that the text begins. -/
theorem literal_append_eq_nil {spelling : List Char}
    (hpieces : ∀ piece ∈ spelling.inits, found.lexeme piece = [] ∨ found.lexeme piece = piece)
    (hfound : found.lexeme rest ≠ []) (hends : found.lexeme rest ≠ rest)
    (h : literal spelling rest = []) (more : List Char) :
    literal spelling (rest ++ more) = [] := by
  by_contra hlonger
  obtain ⟨c, tail, rfl, _⟩ := exists_of_literal_append h hlonger
  exact (hpieces rest (by simp)).elim hfound hends

/-- A text that begins with a quote begins with a token only if the quote is closed. -/
theorem quoted_append_eq_nil (hfound : found.lexeme rest ≠ []) (h : quoted rest = [])
    (more : List Char) : quoted (rest ++ more) = [] := by
  cases rest with
  | nil => exact absurd (lexeme_nil found) hfound
  | cons c rest =>
    by_cases hquote : c = '"'
    · -- no other kind begins with a quote
      subst hquote
      refine absurd ?_ hfound
      cases found with
      | text => exact h
      | _ => rfl
    · simp [quoted, hquote]

theorem takeWhile_append_eq_nil {p : Char → Bool} (hrest : rest ≠ [])
    (h : rest.takeWhile p = []) (more : List Char) : (rest ++ more).takeWhile p = [] := by
  rw [takeWhile_append_of_ne (h ▸ hrest.symm), h]

/-- A kind that accepted nothing accepts nothing in a longer text, where a token was found that
ends before the text does. -/
theorem lexeme_append_eq_nil (hfound : found.lexeme rest ≠ []) (hends : found.lexeme rest ≠ rest)
    (h : kind.lexeme rest = []) (more : List Char) : kind.lexeme (rest ++ more) = [] := by
  have hrest : rest ≠ [] := by
    rintro rfl
    exact hfound (lexeme_nil found)
  cases kind with
  | space | number | word => exact takeWhile_append_eq_nil hrest h more
  | text => exact quoted_append_eq_nil hfound h more
  | emoji =>
    cases rest with
    | nil => exact absurd rfl hrest
    | cons c rest => exact h
  | _ => exact literal_append_eq_nil (by cases found <;> decide) hfound hends h more

/-- What is found in a text is found in another one, where its kind accepts the same and no kind
accepts more. -/
theorem find?_of_lexeme_eq {lexeme other : List Char} (h : find? order rest = some (found, lexeme))
    (hnil : ∀ kind : Kind, kind.lexeme rest = [] → kind.lexeme other = [])
    (hother : found.lexeme other = lexeme) : find? order other = some (found, lexeme) := by
  obtain ⟨-, -, hne⟩ := find?_eq_some h
  induction order with
  | nil => cases h
  | cons kind order ih =>
    by_cases hkind : kind.lexeme rest = []
    · rw [find?_cons_of_eq_nil hkind] at h
      rw [find?_cons_of_eq_nil (hnil kind hkind)]
      exact ih h
    · rw [find?_cons_of_ne_nil hkind] at h
      obtain ⟨rfl, _⟩ := Prod.mk.inj (Option.some.inj h)
      rw [find?_cons_of_ne_nil (by rwa [hother]), hother]

/-- **More text behind a token changes nothing.** -/
theorem find?_append {lexeme : List Char} (h : find? order rest = some (found, lexeme))
    (hends : lexeme ≠ rest) (more : List Char) :
    find? order (rest ++ more) = some (found, lexeme) := by
  obtain ⟨-, rfl, hne⟩ := find?_eq_some h
  exact find?_of_lexeme_eq h (fun _ hkind => lexeme_append_eq_nil hne hends hkind more)
    (lexeme_append hne hends more)

end EmojiScript.Kind
