import EmojiScript.Proofs.Evaluation.Exact
import EmojiScript.Proofs.Layout
import EmojiScript.Proofs.Scanner.Append
import EmojiScript.Proofs.Token.Names

namespace EmojiScript

/-!
# Scanning what was written

A text is put together from its end: in front of a text whose tokens are known, one more token or
one more blank may be written.  Where the tokens stand does not matter, so they are given without
their places.

* `Token.placeless` — a token that stands nowhere.
* `Scans` — what the tokens of a text are, but for their places.
* `Scans.word`, `Scans.text`, `Scans.numeral`, `Scans.mark`, `Scans.blank` — what may be written in
  front of a text.
-/

/-- A token that stands nowhere. -/
def Token.placeless (kind : Kind) (text : String) : Token := ⟨kind, text, ⟨0, 0⟩⟩

/-- A token that is alike stands somewhere. -/
theorem Token.Alike.eq_of_placeless {token : Token} {kind : Kind} {text : String}
    (h : token.Alike (.placeless kind text)) : token = ⟨kind, text, token.location⟩ := by
  obtain ⟨kind', text', location⟩ := token
  obtain ⟨rfl, rfl⟩ := h
  rfl

/-- A text in quotes. -/
def quote (text : String) : String := "\"" ++ text ++ "\""

/-- Wherever these characters are scanned, they have these tokens but for their places. -/
def Scans (chars : List Char) (tokens : List Token) : Prop :=
  ∀ scanner : Scanner, scanner.rest = chars →
    ∃ found, Scanner.Completes Kind.catalog scanner found none ∧
      List.Forall₂ Token.Alike found tokens

namespace Scans

variable {rest lexeme : List Char} {tokens : List Token} {kind : Kind} {c : Char}

theorem nil : Scans [] [] := by
  intro scanner hrest
  exact ⟨[], ⟨scanner, .stop scanner, hrest⟩, .nil⟩

/-- One more token. -/
theorem token (hfind : Kind.find? Kind.catalog (lexeme ++ rest) = some (kind, lexeme))
    (hkind : kind ≠ .space) (h : Scans rest tokens) :
    Scans (lexeme ++ rest) (.placeless kind (String.ofList lexeme) :: tokens) := by
  intro scanner hrest
  obtain ⟨found, hcompletes, halike⟩ := h (scanner.skip lexeme) (by simp [hrest])
  rw [← hrest] at hfind
  exact ⟨_, (Scanner.completes_token_iff hfind hkind).mpr ⟨found, rfl, hcompletes⟩,
    .cons ⟨rfl, rfl⟩ halike⟩

/-- One more blank, which may run on into others. -/
theorem blank (hc : isBlank c = true) (h : Scans rest tokens) : Scans (c :: rest) tokens := by
  intro scanner hrest
  obtain ⟨found, hcompletes, halike⟩ := h (scanner.skip [c]) (by simp [hrest])
  exact ⟨found, (Scanner.completes_blank_iff hc hrest).mpr hcompletes, halike⟩

/-- One more token of one character. -/
theorem mark (hfind : Kind.find? Kind.catalog (c :: rest) = some (kind, [c]))
    (hkind : kind ≠ .space) (h : Scans rest tokens) :
    Scans (c :: rest) (.placeless kind (String.ofList [c]) :: tokens) := by
  have hscans : Scans ([c] ++ rest) (.placeless kind (String.ofList [c]) :: tokens) :=
    h.token hfind hkind
  exact hscans

/-- One more token, as the text that it has. -/
theorem spelled {text : String}
    (hfind : Kind.find? Kind.catalog (text.toList ++ rest) = some (kind, text.toList))
    (hkind : kind ≠ .space) (h : Scans rest tokens) :
    Scans (text.toList ++ rest) (.placeless kind text :: tokens) := by
  have hscans := h.token hfind hkind
  rwa [String.ofList_toList] at hscans

theorem ejkey (h : Scans rest tokens) :
    Scans ("ejkey".toList ++ rest) (.placeless .ejkey "ejkey" :: tokens) :=
  h.spelled rfl (by decide)

theorem print (h : Scans rest tokens) :
    Scans ("print".toList ++ rest) (.placeless .print "print" :: tokens) :=
  h.spelled rfl (by decide)

theorem word {name : String} (hname : IsName name) (hc : c.isLower = false)
    (h : Scans (c :: rest) tokens) :
    Scans (name.toList ++ c :: rest) (.placeless .word name :: tokens) :=
  h.spelled (Kind.find?_catalog_word hname hc rest) (by decide)

theorem numeral {digits : String} (hdigits : Numeral.IsDigits digits) (hc : c.isDigit = false)
    (h : Scans (c :: rest) tokens) :
    Scans (digits.toList ++ c :: rest) (.placeless .number digits :: tokens) := by
  obtain ⟨hne, hall⟩ := hdigits
  have hnil : digits.toList ≠ [] := mt String.toList_eq_nil_iff.mp hne
  exact h.spelled (Kind.find?_catalog_number hnil (List.all_eq_true.mp hall) hc rest) (by decide)

theorem number (n : Nat) (hc : c.isDigit = false) (h : Scans (c :: rest) tokens) :
    Scans (n.repr.toList ++ c :: rest) (.placeless .number n.repr :: tokens) :=
  h.numeral (Numeral.isDigits_repr n) hc

theorem text {text : String} (htext : Quoteless text) (h : Scans rest tokens) :
    Scans ((quote text).toList ++ rest) (.placeless .text (quote text) :: tokens) := by
  have hquote : (quote text).toList ++ rest = '"' :: (text.toList ++ '"' :: rest) := by
    simp [quote]
  have hlexeme : (quote text).toList = '"' :: (text.toList ++ ['"']) := by simp [quote]
  have hfind := Kind.find?_catalog_text htext rest
  rw [← hquote, ← hlexeme] at hfind
  exact h.spelled hfind (by decide)

end Scans

end EmojiScript
