import EmojiScript.Proofs.Relocation
import EmojiScript.Proofs.Source
import EmojiScript.Proofs.Token.Lexeme

namespace EmojiScript

/-!
# Scanning one text behind another

The tokens of a text that ends with a semicolon, blanks aside, stay as they are when more text is
put behind it: every token but the last one ends before the text does, and a semicolon is read at
once.  Only blanks may run on into the text behind, where they would be skipped anyway.  That text
is scanned from another place than its own start, and so its tokens and its fault are those that it
has alone, but for their places.

* `Scanner.Completes` — a whole scan as a relation; `Scanner.collect_eq_iff` says that it is one.
* `Scanner.Completes.relocate_behind` — a scan from another place.
* `Scanner.Gives.completes_extend` — more text behind a scan.
* `tokenize_append` — whole texts.
-/

namespace Scanner

variable {order : List Kind} {scanner scanner' : Scanner} {tokens others : List Token}
  {fault? : Option Fault} {lexeme : List Char}

/-! ### Whole scans -/

/-- Scanning on from a scanner gives these tokens and ends for this reason. -/
def Completes (order : List Kind) (scanner : Scanner) (tokens : List Token)
    (fault? : Option Fault) : Prop :=
  ∃ scanner', Gives order scanner tokens scanner' ∧ EndsWith order scanner' fault?

/-- No token begins where a scan ends. -/
theorem EndsWith.find?_eq_none (h : EndsWith order scanner fault?) :
    Kind.find? order scanner.rest = none := by
  cases fault? with
  | none =>
    have hrest : scanner.rest = [] := h
    rw [hrest, Kind.find?_nil]
  | some fault =>
    obtain ⟨_, _, _, hfind, _⟩ := h
    exact hfind

/-- A scan ends for one reason. -/
theorem EndsWith.unique {other? : Option Fault} (h : EndsWith order scanner fault?)
    (hother : EndsWith order scanner other?) : fault? = other? := by
  cases fault? with
  | none =>
    cases other? with
    | none => rfl
    | some other =>
      obtain ⟨_, _, hrest, _⟩ := hother
      cases (h : scanner.rest = []).symm.trans hrest
  | some fault =>
    obtain ⟨_, _, hrest, _, rfl⟩ := h
    cases other? with
    | none => cases (hother : scanner.rest = []).symm.trans hrest
    | some other =>
      obtain ⟨_, _, hrest', _, rfl⟩ := hother
      obtain ⟨rfl, _⟩ := List.cons.inj (hrest.symm.trans hrest')
      rfl

/-- A scan goes on behind blanks as if they were not there. -/
theorem completes_blanks_iff (hfind : Kind.find? order scanner.rest = some (.space, lexeme)) :
    Completes order scanner tokens fault? ↔
      Completes order (scanner.skip lexeme) tokens fault? := by
  constructor
  · rintro ⟨last, hgives, hend⟩
    cases hgives with
    | stop => rw [hend.find?_eq_none] at hfind; cases hfind
    | blanks hfind' hrest =>
      obtain ⟨_, rfl⟩ := Prod.mk.inj (Option.some.inj (hfind.symm.trans hfind'))
      exact ⟨last, hrest, hend⟩
    | token hfind' hkind =>
      obtain ⟨rfl, _⟩ := Prod.mk.inj (Option.some.inj (hfind.symm.trans hfind'))
      exact absurd rfl hkind
  · rintro ⟨last, hrest, hend⟩
    exact ⟨last, .blanks hfind hrest, hend⟩

/-- A scan that finds a token goes on behind it. -/
theorem completes_token_iff {kind : Kind}
    (hfind : Kind.find? order scanner.rest = some (kind, lexeme)) (hkind : kind ≠ .space) :
    Completes order scanner tokens fault? ↔
      ∃ rest, tokens = ⟨kind, String.ofList lexeme, scanner.location⟩ :: rest ∧
        Completes order (scanner.skip lexeme) rest fault? := by
  constructor
  · rintro ⟨last, hgives, hend⟩
    cases hgives with
    | stop => rw [hend.find?_eq_none] at hfind; cases hfind
    | blanks hfind' =>
      obtain ⟨rfl, _⟩ := Prod.mk.inj (Option.some.inj (hfind.symm.trans hfind'))
      exact absurd rfl hkind
    | token hfind' _ hrest =>
      obtain ⟨rfl, rfl⟩ := Prod.mk.inj (Option.some.inj (hfind.symm.trans hfind'))
      exact ⟨_, rfl, last, hrest, hend⟩
  · rintro ⟨rest, rfl, last, hrest, hend⟩
    exact ⟨last, .token hfind hkind hrest, hend⟩

/-- There is but one whole scan. -/
theorem Completes.unique {other? : Option Fault} (h : Completes order scanner tokens fault?)
    (hother : Completes order scanner others other?) : tokens = others ∧ fault? = other? := by
  obtain ⟨last, hgives, hend⟩ := h
  induction hgives generalizing others with
  | stop scanner =>
    obtain ⟨last', hgives', hend'⟩ := hother
    cases hgives' with
    | stop => exact ⟨rfl, hend.unique hend'⟩
    | blanks hfind | token hfind =>
      rw [hend.find?_eq_none] at hfind
      cases hfind
  | blanks hfind _ ih => exact ih ((completes_blanks_iff hfind).mp hother) hend
  | token hfind hkind _ ih =>
    obtain ⟨rest, rfl, hrest⟩ := (completes_token_iff hfind hkind).mp hother
    obtain ⟨rfl, hreason⟩ := ih hrest hend
    exact ⟨rfl, hreason⟩

/-- What is collected from a text is its whole scan. -/
theorem collect_eq_iff (text : String) :
    (ofString text).collect = (tokens, fault?) ↔
      Completes Kind.catalog (ofString text) tokens fault? := by
  have hcollect : Completes Kind.catalog (ofString text) (ofString text).collect.1
      (ofString text).collect.2 := gives_collect text
  constructor
  · intro h
    rwa [h] at hcollect
  · intro h
    obtain ⟨htokens, hfault⟩ := hcollect.unique h
    exact Prod.ext htokens hfault

/-! ### Scanning from another place -/

/-- The scanner with all that is left of its text elsewhere. -/
def relocate (move : Relocation) (scanner : Scanner) : Scanner :=
  { scanner with location := scanner.location.relocate move }

theorem skip_relocate_behind (before : String) (scanner : Scanner) (lexeme : List Char) :
    (scanner.relocate (.behind before)).skip lexeme =
      (scanner.skip lexeme).relocate (.behind before) := by
  simp [relocate, skip, Location.relocate_behind_after]

theorem Gives.relocate_behind (before : String) (h : Gives order scanner tokens scanner') :
    Gives order (scanner.relocate (.behind before))
      (tokens.map (Token.relocate (.behind before))) (scanner'.relocate (.behind before)) := by
  induction h with
  | stop => exact .stop _
  | blanks hfind _ ih => exact .blanks hfind (skip_relocate_behind before _ _ ▸ ih)
  | token hfind hkind _ ih => exact .token hfind hkind (skip_relocate_behind before _ _ ▸ ih)

/-- **A scan from another place** gives the same tokens and the same fault elsewhere. -/
theorem Completes.relocate_behind (before : String) (h : Completes order scanner tokens fault?) :
    Completes order (scanner.relocate (.behind before))
      (tokens.map (Token.relocate (.behind before)))
      (fault?.map (Fault.relocate (.behind before))) := by
  obtain ⟨last, hgives, hend⟩ := h
  refine ⟨last.relocate (.behind before), hgives.relocate_behind before, ?_⟩
  cases fault? with
  | none => exact hend
  | some fault =>
    obtain ⟨found, after, hrest, hfind, rfl⟩ := hend
    exact ⟨found, after, hrest, hfind, rfl⟩

/-! ### More text behind a scan -/

/-- The scanner with more text behind its own. -/
def extend (scanner : Scanner) (more : List Char) : Scanner :=
  { scanner with rest := scanner.rest ++ more }

@[simp] theorem skip_nil (scanner : Scanner) : scanner.skip [] = scanner := by
  simp [skip]

theorem skip_skip (scanner : Scanner) (lexeme more : List Char) :
    (scanner.skip lexeme).skip more = scanner.skip (lexeme ++ more) := by
  simp [skip, List.drop_drop, String.ofList_append, Location.after_append]

/-- What begins a text is skipped before the text that was put behind. -/
theorem skip_extend (h : lexeme <+: scanner.rest) (more : List Char) :
    (scanner.extend more).skip lexeme = (scanner.skip lexeme).extend more := by
  simp [extend, skip, List.drop_append_of_le_length h.length_le]

/-- Blanks are tried first. -/
theorem find?_catalog_blank {rest : List Char} (h : rest.takeWhile isBlank ≠ []) :
    Kind.find? Kind.catalog rest = some (.space, rest.takeWhile isBlank) :=
  Kind.find?_cons_of_ne_nil h

/-- A scan goes on behind one blank as if it were not there, whether or not others follow. -/
theorem completes_blank_iff {c : Char} {rest : List Char} (hc : isBlank c = true)
    (hrest : scanner.rest = c :: rest) :
    Completes Kind.catalog scanner tokens fault? ↔
      Completes Kind.catalog (scanner.skip [c]) tokens fault? := by
  have hrun : scanner.rest.takeWhile isBlank = c :: rest.takeWhile isBlank := by
    rw [hrest, List.takeWhile_cons_of_pos hc]
  have hbehind : (scanner.skip [c]).rest = rest := by simp [hrest]
  rw [completes_blanks_iff (find?_catalog_blank (by simp [hrun])), hrun]
  by_cases hmore : rest.takeWhile isBlank = []
  · rw [hmore]
  · have hothers : Completes Kind.catalog (scanner.skip [c]) tokens fault? ↔ _ :=
      completes_blanks_iff (hbehind.symm ▸ find?_catalog_blank hmore)
    rw [hothers, skip_skip, hbehind]
    rfl

/-- Blanks at the end of a text run on into the blanks of the text behind it. -/
theorem completes_extend_blanks {more : List Char} (hblank : scanner.rest.all isBlank = true)
    (hne : scanner.rest ≠ [])
    (h : Completes Kind.catalog ((scanner.skip scanner.rest).extend more) tokens fault?) :
    Completes Kind.catalog (scanner.extend more) tokens fault? := by
  have hrun : (scanner.extend more).rest.takeWhile isBlank =
      scanner.rest ++ more.takeWhile isBlank :=
    List.takeWhile_append_of_pos (List.all_eq_true.mp hblank)
  have hskip : (scanner.extend more).skip (scanner.rest ++ more.takeWhile isBlank) =
      ((scanner.skip scanner.rest).extend more).skip (more.takeWhile isBlank) := by
    rw [← skip_skip, skip_extend (List.prefix_refl _)]
  have hrest : ((scanner.skip scanner.rest).extend more).rest = more := by simp [extend]
  have hblanks : (scanner.extend more).rest.takeWhile isBlank ≠ [] := by simp [hrun, hne]
  refine (completes_blanks_iff (find?_catalog_blank hblanks)).mpr ?_
  rw [hrun, hskip]
  by_cases hmore : more.takeWhile isBlank = []
  · rwa [hmore, skip_nil]
  · exact (completes_blanks_iff (hrest.symm ▸ find?_catalog_blank hmore)).mp h

/-- Nothing is given at the end of a text. -/
theorem Gives.tokens_eq_nil (h : Gives order scanner tokens scanner') (hrest : scanner.rest = []) :
    tokens = [] := by
  cases h with
  | stop => rfl
  | blanks hfind | token hfind =>
    rw [hrest, Kind.find?_nil] at hfind
    cases hfind

/-- A semicolon is read whatever stands behind it. -/
theorem find?_catalog_semicolon (more : List Char) :
    Kind.find? Kind.catalog (';' :: more) = some (.semicolon, [';']) := rfl

/-- **More text behind a scan.** It is scanned where the scan ended, if this was at the end of the
text behind a semicolon. -/
theorem Gives.completes_extend (h : Gives Kind.catalog scanner tokens scanner')
    (hrest : scanner'.rest = [])
    (hlast : ∀ last, tokens.getLast? = some last → last.kind = .semicolon) {more : List Char}
    (hmore : Completes Kind.catalog (scanner'.extend more) others fault?) :
    Completes Kind.catalog (scanner.extend more) (tokens ++ others) fault? := by
  induction h with
  | stop => exact hmore
  | @blanks scanner _ lexeme tokens hfind _ ih =>
    have hbehind := ih hrest hlast hmore
    by_cases hends : lexeme = scanner.rest
    · -- the blanks end the text, and others may follow behind it
      subst hends
      obtain ⟨_, hblank, hne⟩ := Kind.find?_eq_some hfind
      refine completes_extend_blanks ?_ hne hbehind
      rw [hblank]
      exact List.all_takeWhile
    · rw [← skip_extend ⟨_, (rest_eq_of_find? hfind).symm⟩] at hbehind
      exact (completes_blanks_iff (Kind.find?_append hfind hends more)).mpr hbehind
  | @token scanner _ kind lexeme tokens hfind hkind hgives ih =>
    have hbehind := ih hrest (fun last h => hlast last (by simp [List.getLast?_cons, h])) hmore
    rw [← skip_extend ⟨_, (rest_eq_of_find? hfind).symm⟩] at hbehind
    refine (completes_token_iff ?_ hkind).mpr ⟨_, rfl, hbehind⟩
    by_cases hends : lexeme = scanner.rest
    · -- the token ends the text, so it is the last one and a semicolon
      have hnone : tokens = [] := hgives.tokens_eq_nil (by simp [hends])
      subst hnone
      obtain rfl : kind = .semicolon := hlast _ rfl
      obtain ⟨_, hlexeme, hne⟩ := Kind.find?_eq_some hfind
      have hspelled : lexeme = [';'] := by
        rw [hlexeme] at hne ⊢
        exact Kind.literal_eq_of_ne_nil hne
      rw [extend, ← hends, hspelled]
      exact find?_catalog_semicolon more
    · exact Kind.find?_append hfind hends more

end Scanner

theorem tokenize_of_completes {text : String} {tokens : List Token} {fault? : Option Fault}
    (h : Scanner.Completes Kind.catalog (Scanner.ofString text) tokens fault?) :
    tokenize text = match fault? with
      | none => .ok tokens
      | some fault => .error fault := by
  rw [tokenize, (Scanner.collect_eq_iff text).mpr h]
  cases fault? <;> rfl

/-- A text has these tokens if its whole scan gives them and no fault. -/
theorem tokenize_eq_ok_iff {text : String} {tokens : List Token} :
    tokenize text = .ok tokens ↔
      Scanner.Completes Kind.catalog (Scanner.ofString text) tokens none :=
  ⟨fun h => (Scanner.collect_eq_iff text).mp (collect_of_tokenize h), tokenize_of_completes⟩

/-- **One text behind another.** A text that ends with a semicolon, blanks aside, keeps its tokens,
and those of the text behind it, or its fault, are only moved. -/
theorem tokenize_append {before : String} {tokens : List Token} (h : tokenize before = .ok tokens)
    (hlast : ∀ last, tokens.getLast? = some last → last.kind = .semicolon) (text : String) :
    tokenize (before ++ text) =
      ((tokenize text).mapError (Fault.relocate (.behind before))).map
        fun more => tokens ++ more.map (Token.relocate (.behind before)) := by
  obtain ⟨scanner, hgives, hrest⟩ := gives_of_tokenize h
  -- the scan of the first text ends where the other one begins
  have hseam : scanner.extend text.toList =
      (Scanner.ofString text).relocate (.behind before) := by
    obtain ⟨read, hread, hlocation⟩ := hgives.exists_read
    have hfailed := hgives.failed_eq
    obtain rfl : read = before.toList := by simpa [hrest] using hread.symm
    rw [Scanner.extend, Scanner.relocate, hrest, hlocation, hfailed, Scanner.location_ofString,
      Scanner.location_ofString, Location.relocate_behind_start, String.ofList_toList]
    rfl
  cases hcollect : (Scanner.ofString text).collect with
  | mk more fault? =>
    have hcompletes := (Scanner.collect_eq_iff text).mp hcollect
    have hmore := hcompletes.relocate_behind before
    rw [← hseam] at hmore
    have hwhole := hgives.completes_extend hrest hlast hmore
    have htext : (Scanner.ofString before).extend text.toList =
        Scanner.ofString (before ++ text) := by
      simp [Scanner.extend, Scanner.ofString]
    rw [htext] at hwhole
    rw [tokenize_of_completes hwhole, tokenize_of_completes hcompletes]
    cases fault? <;> rfl

end EmojiScript
