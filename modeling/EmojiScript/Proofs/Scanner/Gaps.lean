import EmojiScript.Proofs.Layout
import EmojiScript.Proofs.Scanner.Append
import EmojiScript.Proofs.Token.Seams

namespace EmojiScript

/-!
# Laying out tokens again

The tokens of a text may be written down again with other blanks between them, or with none.  They
are scanned as they were, but for their places, exactly if blanks still stand wherever two of them
would run together: between two numerals, and between a word and a word or keyword behind it.

* `layOut`, `Separated` — the new text, and where it needs its blanks.
* `Scanner.Gives.scannable` — tokens that were scanned.
* `Scanner.completes_layOut_iff` — the scan of the new text, from any place.
* `tokenize_layOut_iff` — whole texts.
-/

/-- The texts of some tokens, with a gap before each of them and one behind the last. -/
def layOut (gap : Nat → String) : List Token → String
  | [] => gap 0
  | token :: rest => gap 0 ++ token.text ++ layOut (fun i => gap (i + 1)) rest

/-- The gap between two tokens is not empty where they need one. -/
def Separated (gap : Nat → String) (tokens : List Token) : Prop :=
  ∀ i token next, tokens[i]? = some token → tokens[i + 1]? = some next →
    token.kind.NeedsGap next.kind → gap (i + 1) ≠ ""

theorem separated_nil (gap : Nat → String) : Separated gap [] := by
  intro i token next htoken
  simp at htoken

theorem separated_cons_iff {gap : Nat → String} {token : Token} {rest : List Token} :
    Separated gap (token :: rest) ↔
      (∀ next ∈ rest.head?, token.kind.NeedsGap next.kind → gap 1 ≠ "") ∧
        Separated (fun i => gap (i + 1)) rest := by
  constructor
  · intro h
    refine ⟨fun next hnext => h 0 token next rfl ?_, fun i => h (i + 1)⟩
    rw [List.getElem?_cons_succ, ← List.head?_eq_getElem?]
    exact hnext
  · rintro ⟨hfirst, hrest⟩ i token' next htoken hnext
    cases i with
    | zero =>
      obtain rfl : token = token' := by simpa using htoken
      rw [List.getElem?_cons_succ, ← List.head?_eq_getElem?] at hnext
      exact hfirst next hnext
    | succ i => exact hrest i token' next htoken hnext

/-! ### The character behind a token -/

/-- A token does not run on into the tokens behind it exactly if there is a gap where one is
needed. -/
theorem runsOn_layOut_iff {kind : Kind} (hkind : kind ≠ .space) {gap : Nat → String}
    (hgap : ∀ c ∈ (gap 0).toList, isBlank c = true) {tokens : List Token}
    (htokens : ∀ token ∈ tokens, token.Scannable) :
    (∀ c ∈ (layOut gap tokens).toList.head?, kind.runsOn c = false) ↔
      ∀ next ∈ tokens.head?, kind.NeedsGap next.kind → gap 0 ≠ "" := by
  cases hblanks : (gap 0).toList with
  | nil =>
    have hempty : gap 0 = "" := String.toList_eq_nil_iff.mp hblanks
    cases tokens with
    | nil => simp [layOut, hempty]
    | cons next rest =>
      obtain ⟨c, text, htext, hlexeme⟩ := (htokens next List.mem_cons_self).exists_cons
      have hfirst := Kind.runsOn_iff_needsGap hkind hlexeme
      simp [layOut, hempty, htext, ← hfirst]
  | cons c blanks =>
    have hne : gap 0 ≠ "" := by
      intro hempty
      simp [hempty] at hblanks
    have hblank := Kind.runsOn_of_isBlank hkind (hgap c (by simp [hblanks]))
    cases tokens with
    | nil => simp [layOut, hblanks, hblank]
    | cons next rest => simp [layOut, hblanks, hblank, hne]

namespace Scanner

variable {order : List Kind} {scanner scanner' : Scanner} {tokens : List Token}
  {fault? : Option Fault} {c : Char} {gap rest : List Char}

/-! ### Scanning -/

/-- What was scanned is found where it stands alone. -/
theorem Gives.scannable (h : Gives Kind.catalog scanner tokens scanner') :
    ∀ token ∈ tokens, token.Scannable := by
  induction h with
  | stop => simp
  | blanks _ _ ih => exact ih
  | token hfind hkind _ ih =>
    refine List.forall_mem_cons.mpr ⟨⟨?_, hkind⟩, ih⟩
    rw [rest_eq_of_find? hfind] at hfind
    simpa using Kind.find?_alone hfind

/-- A scan goes on behind a gap as if it were not there. -/
theorem completes_gap_iff (hgap : ∀ c ∈ gap, isBlank c = true)
    (hrest : scanner.rest = gap ++ rest) :
    Completes Kind.catalog scanner tokens fault? ↔
      Completes Kind.catalog (scanner.skip gap) tokens fault? := by
  induction gap generalizing scanner with
  | nil => rw [skip_nil]
  | cons c gap ih =>
    obtain ⟨hc, hgap⟩ := List.forall_mem_cons.mp hgap
    have hbehind : (scanner.skip [c]).rest = gap ++ rest := by simp [hrest]
    rw [completes_blank_iff hc hrest, ih hgap hbehind, skip_skip]
    rfl

/-- The first token of a scan is found at once or behind blanks. -/
theorem Completes.cons_cases {token : Token}
    (h : Completes order scanner (token :: tokens) fault?) :
    (∃ lexeme, Kind.find? order scanner.rest = some (.space, lexeme)) ∨
      Kind.find? order scanner.rest = some (token.kind, token.text.toList) := by
  obtain ⟨last, hgives, _⟩ := h
  cases hgives with
  | blanks hfind => exact .inl ⟨_, hfind⟩
  | token hfind => exact .inr (by simpa using hfind)

/-- A token that was scanned is scanned again in front of other text, exactly if it does not run on
into it, and then the scan goes on behind it. -/
theorem completes_scannable_iff {token : Token} (htoken : token.Scannable)
    (hrest : scanner.rest = token.text.toList ++ rest) :
    (∃ found, Completes Kind.catalog scanner found none ∧
        List.Forall₂ Token.Alike found (token :: tokens)) ↔
      (∀ c ∈ rest.head?, token.kind.runsOn c = false) ∧
        ∃ found, Completes Kind.catalog (scanner.skip token.text.toList) found none ∧
          List.Forall₂ Token.Alike found tokens := by
  rw [← Kind.find?_append_iff htoken.find?_eq, ← hrest]
  constructor
  · rintro ⟨found, hcompletes, halike⟩
    cases halike with
    | @cons first _ found _ hfirst halike =>
      have hfind : Kind.find? Kind.catalog scanner.rest =
          some (token.kind, token.text.toList) := by
        rcases hcompletes.cons_cases with ⟨lexeme, hspace⟩ | hfind
        · -- a token does not begin with a blank
          obtain ⟨c, text, htext, hlexeme⟩ := htoken.exists_cons
          rw [hrest, htext] at hspace
          obtain ⟨_, hblanks, hne⟩ := Kind.find?_eq_some hspace
          rw [hblanks] at hne
          exact absurd (Kind.eq_space_of_lexeme_ne_nil hne hlexeme) htoken.ne_space
        · rw [hfind, hfirst.1, hfirst.2]
      obtain ⟨others, hfound, hcompletes⟩ :=
        (completes_token_iff hfind htoken.ne_space).mp hcompletes
      obtain ⟨_, rfl⟩ := List.cons.inj hfound
      exact ⟨hfind, found, hcompletes, halike⟩
  · rintro ⟨hfind, found, hcompletes, halike⟩
    refine ⟨_, (completes_token_iff hfind htoken.ne_space).mpr ⟨found, rfl, hcompletes⟩, ?_⟩
    exact .cons ⟨rfl, String.ofList_toList⟩ halike

/-- **Tokens laid out again**, from any place: they are scanned as they were exactly if they are
separated. -/
theorem completes_layOut_iff {gap : Nat → String}
    (htokens : ∀ token ∈ tokens, token.Scannable)
    (hgap : ∀ i ≤ tokens.length, ∀ c ∈ (gap i).toList, isBlank c = true)
    (hrest : scanner.rest = (layOut gap tokens).toList) :
    (∃ found, Completes Kind.catalog scanner found none ∧ List.Forall₂ Token.Alike found tokens) ↔
      Separated gap tokens := by
  have hfirst := hgap 0 (Nat.zero_le _)
  induction tokens generalizing gap scanner with
  | nil =>
    have hall : scanner.rest = (gap 0).toList ++ [] := by simpa [layOut] using hrest
    have hend : Completes Kind.catalog (scanner.skip (gap 0).toList) [] none :=
      ⟨_, .stop _, by simp [EndsWith, hall]⟩
    refine ⟨fun _ => separated_nil gap, fun _ => ⟨[], ?_, .nil⟩⟩
    exact (completes_gap_iff hfirst hall).mpr hend
  | cons token rest ih =>
    obtain ⟨htoken, hothers⟩ := List.forall_mem_cons.mp htokens
    have hgap' : ∀ i ≤ rest.length, ∀ c ∈ (gap (i + 1)).toList, isBlank c = true :=
      fun i hi => hgap (i + 1) (Nat.succ_le_succ hi)
    have hall : scanner.rest = (gap 0).toList ++
        (token.text.toList ++ (layOut (fun i => gap (i + 1)) rest).toList) := by
      simpa [layOut] using hrest
    have hbehind : (scanner.skip (gap 0).toList).rest =
        token.text.toList ++ (layOut (fun i => gap (i + 1)) rest).toList := by
      simp [hall]
    have hafter : ((scanner.skip (gap 0).toList).skip token.text.toList).rest =
        (layOut (fun i => gap (i + 1)) rest).toList := by
      simp [hall]
    have hseam : (∀ c ∈ (layOut (fun i => gap (i + 1)) rest).toList.head?,
        token.kind.runsOn c = false) ↔
          ∀ next ∈ rest.head?, token.kind.NeedsGap next.kind → gap 1 ≠ "" :=
      runsOn_layOut_iff htoken.ne_space (hgap' 0 (Nat.zero_le _)) hothers
    simp only [completes_gap_iff hfirst hall]
    rw [completes_scannable_iff htoken hbehind, separated_cons_iff, hseam]
    exact and_congr_right' (ih hothers hgap' hafter (hgap' 0 (Nat.zero_le _)))

end Scanner

/-- **Laying out tokens again.** Write the tokens of a text down with any blanks between them.  They
are scanned as they were, but for their places, exactly if a gap stands wherever two of them need
one. -/
theorem tokenize_layOut_iff {source : String} {tokens : List Token}
    (h : tokenize source = .ok tokens) {gap : Nat → String}
    (hgap : ∀ i ≤ tokens.length, ∀ c ∈ (gap i).toList, isBlank c = true) :
    (∃ found, tokenize (layOut gap tokens) = .ok found ∧ List.Forall₂ Token.Alike found tokens) ↔
      Separated gap tokens := by
  obtain ⟨scanner', hgives, _⟩ := gives_of_tokenize h
  simp only [tokenize_eq_ok_iff]
  exact Scanner.completes_layOut_iff hgives.scannable hgap rfl

/-- The tokens of `ej  print 12 3`. -/
def wordAndKeyword : List Token :=
  [⟨.word, "ej", ⟨0, 1⟩⟩, ⟨.print, "print", ⟨4, 1⟩⟩, ⟨.number, "12", ⟨10, 1⟩⟩,
   ⟨.number, "3", ⟨13, 1⟩⟩]

/-- A line break behind the word and a space between the numerals. -/
def fewGaps : Nat → String
  | 1 => "\n"
  | 3 => " "
  | _ => ""

theorem tokenize_layOut_wordAndKeyword :
    tokenize "ej  print 12 3" = .ok wordAndKeyword ∧
      layOut fewGaps wordAndKeyword = "ej\nprint12 3" ∧
      (∃ found, tokenize "ej\nprint12 3" = .ok found ∧
        List.Forall₂ Token.Alike found wordAndKeyword) ∧
      ¬ ∃ found, tokenize "ejprint123" = .ok found ∧
        List.Forall₂ Token.Alike found wordAndKeyword := by
  have htokens : tokenize "ej  print 12 3" = .ok wordAndKeyword := by decide +kernel
  have hall : ∀ i ≤ wordAndKeyword.length, (fewGaps i).toList.all isBlank = true := by decide
  have hblank : ∀ i ≤ wordAndKeyword.length, ∀ c ∈ (fewGaps i).toList, isBlank c = true :=
    fun i hi => List.all_eq_true.mp (hall i hi)
  refine ⟨htokens, rfl, (tokenize_layOut_iff htokens hblank).mpr ?_, fun htight => ?_⟩
  · exact separated_cons_iff.mpr ⟨by decide, separated_cons_iff.mpr ⟨by decide,
      separated_cons_iff.mpr ⟨by decide, separated_cons_iff.mpr ⟨by decide, separated_nil _⟩⟩⟩⟩
  · -- without any gap the word and the keyword behind it are another keyword
    have hnone : ∀ i ≤ wordAndKeyword.length, ∀ c ∈ "".toList, isBlank c = true := by simp
    have hseparated : Separated (fun _ => "") wordAndKeyword :=
      (tokenize_layOut_iff htokens hnone).mp htight
    exact hseparated 0 _ _ rfl rfl (by decide) rfl

end EmojiScript
