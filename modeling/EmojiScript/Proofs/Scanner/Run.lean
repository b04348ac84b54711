import EmojiScript.Scanner

namespace EmojiScript.Scanner

/-!
# Scanning as a relation

`Gives` follows a scanner over a stretch of its text, one lexeme at a time, and collects the
tokens on the way.  `nextIn` goes over as many blanks as there are and then over one token;
`collect` goes on until the text or the kinds run out.  Facts about tokens are proved by induction
over `Gives`, with no regard to how the two functions cut a stretch into calls.

* `answers_nextIn` — what one call goes over.
* `gives_of_collectOnto` — what all calls together go over, and why they end.
* `Gives.exists_lexeme` — what the tokens look like.
-/

@[simp] theorem rest_ofString (text : String) : (ofString text).rest = text.toList := rfl

@[simp] theorem location_ofString (text : String) : (ofString text).location = .start := rfl

/-- Scanning on from the first scanner gives the tokens and comes to the second. -/
inductive Gives (order : List Kind) : Scanner → List Token → Scanner → Prop where
  | stop (scanner : Scanner) : Gives order scanner [] scanner
  | blanks {scanner scanner' : Scanner} {lexeme : List Char} {tokens : List Token} :
      Kind.find? order scanner.rest = some (.space, lexeme) →
      Gives order (scanner.skip lexeme) tokens scanner' → Gives order scanner tokens scanner'
  | token {scanner scanner' : Scanner} {kind : Kind} {lexeme : List Char} {tokens : List Token} :
      Kind.find? order scanner.rest = some (kind, lexeme) → kind ≠ .space →
      Gives order (scanner.skip lexeme) tokens scanner' →
      Gives order scanner (⟨kind, String.ofList lexeme, scanner.location⟩ :: tokens) scanner'

variable {order : List Kind} {scanner scanner' : Scanner} {tokens : List Token}

/-- One stretch behind another is a stretch. -/
theorem Gives.trans {scanner'' : Scanner} {more : List Token}
    (h : Gives order scanner tokens scanner') (hmore : Gives order scanner' more scanner'') :
    Gives order scanner (tokens ++ more) scanner'' := by
  induction h with
  | stop => exact hmore
  | blanks hfind _ ih => exact .blanks hfind (ih hmore)
  | token hfind hkind _ ih => exact .token hfind hkind (ih hmore)

/-- A scanner that has not failed does not fail on the way. -/
theorem Gives.failed_eq (h : Gives order scanner tokens scanner') :
    scanner'.failed = scanner.failed := by
  induction h with
  | stop => rfl
  | blanks _ _ ih => exact ih
  | token _ _ _ ih => exact ih

/-- No kind begins where the scanner stands, and this is its fault. -/
def Stuck (order : List Kind) (scanner : Scanner) (fault : Fault) : Prop :=
  ∃ found after, scanner.rest = found :: after ∧ Kind.find? order scanner.rest = none ∧
    fault = .lex scanner.location found

/-- What a call of `nextIn` goes over, with its answer. -/
def Answers (order : List Kind) (scanner : Scanner) :
    Option (Except Fault Token) × Scanner → Prop
  | (none, scanner') => Gives order scanner [] scanner' ∧ scanner'.rest = []
  | (some (.ok token), scanner') => Gives order scanner [token] scanner'
  | (some (.error fault), failed) => ∃ scanner', Gives order scanner [] scanner' ∧
      Stuck order scanner' fault ∧ failed = { scanner' with failed := true }

/-- A call that begins with blanks answers as a call behind them does. -/
theorem Answers.blanks {lexeme : List Char} {answer : Option (Except Fault Token) × Scanner}
    (hfind : Kind.find? order scanner.rest = some (.space, lexeme))
    (h : Answers order (scanner.skip lexeme) answer) : Answers order scanner answer := by
  match answer, h with
  | (none, scanner'), h => exact ⟨Gives.blanks hfind h.1, h.2⟩
  | (some (.ok token), scanner'), h => exact Gives.blanks hfind h
  | (some (.error fault), failed), h =>
    obtain ⟨scanner', hgives, hstuck, hfailed⟩ := h
    exact ⟨scanner', Gives.blanks hfind hgives, hstuck, hfailed⟩

/-- **One call.** It goes over blanks, and then over a token unless the text or the kinds run
out. -/
theorem answers_nextIn (order : List Kind) (scanner : Scanner)
    (h : scanner.failed = false) : Answers order scanner (scanner.nextIn order) := by
  fun_induction nextIn order scanner with
  | case1 scanner hfailed => simp [h] at hfailed
  | case2 scanner _ hrest => exact ⟨.stop scanner, hrest⟩
  | case3 scanner _ found after hrest hfind =>
    exact ⟨scanner, .stop scanner, ⟨found, after, hrest, hfind, rfl⟩, rfl⟩
  -- blanks are skipped within the call
  | case4 scanner _ _ _ _ lexeme hfind ih => exact .blanks hfind (ih h)
  | case5 scanner _ _ _ _ kind lexeme hfind hkind => exact .token hfind hkind (.stop _)

/-- Where a scan ends: at the end of the text, or stuck with a fault. -/
def EndsWith (order : List Kind) (scanner : Scanner) : Option Fault → Prop
  | none => scanner.rest = []
  | some fault => Stuck order scanner fault

/-- **All calls.** Together they go over one stretch, give its tokens behind those found before,
and end for the reason that is reported. -/
theorem gives_of_collectOnto (order : List Kind) (found : List Token) (scanner : Scanner)
    (h : scanner.failed = false) :
    ∃ tokens scanner', Gives order scanner tokens scanner' ∧
      (collectOnto order found scanner).1 = found.reverse ++ tokens ∧
      EndsWith order scanner' (collectOnto order found scanner).2 := by
  fun_induction collectOnto order found scanner with
  | case1 found scanner scanner' hnext =>
    have hanswer := answers_nextIn order scanner h
    rw [hnext] at hanswer
    exact ⟨[], scanner', hanswer.1, by simp, hanswer.2⟩
  | case2 found scanner fault failed hnext =>
    have hanswer := answers_nextIn order scanner h
    rw [hnext] at hanswer
    obtain ⟨scanner', hgives, hstuck, _⟩ := hanswer
    exact ⟨[], scanner', hgives, by simp, hstuck⟩
  | case3 found scanner token scanner' hnext ih =>
    have hanswer := answers_nextIn order scanner h
    rw [hnext] at hanswer
    -- the call goes over one stretch, and those that follow go on behind it
    have hone : Gives order scanner [token] scanner' := hanswer
    obtain ⟨tokens, last, hgives, htokens, hend⟩ := ih (hone.failed_eq.trans h)
    exact ⟨token :: tokens, last, hone.trans hgives, by simpa using htokens, hend⟩

/-- The tokens of a whole text, and where and why its scan ends. -/
theorem gives_collect (text : String) :
    ∃ scanner', Gives Kind.catalog (ofString text) (ofString text).collect.1 scanner' ∧
      EndsWith Kind.catalog scanner' (ofString text).collect.2 := by
  obtain ⟨tokens, scanner', hgives, htokens, hend⟩ :=
    gives_of_collectOnto Kind.catalog [] (ofString text) rfl
  have htokens : (ofString text).collect.1 = tokens := by simpa [collect] using htokens
  exact ⟨scanner', htokens ▸ hgives, hend⟩

/-! ### What a stretch leaves behind -/

/-- A lexeme stands at the front of what is left of the text. -/
theorem rest_eq_of_find? {kind : Kind} {lexeme : List Char}
    (h : Kind.find? order scanner.rest = some (kind, lexeme)) :
    scanner.rest = lexeme ++ (scanner.skip lexeme).rest := by
  obtain ⟨_, rfl, _⟩ := Kind.find?_eq_some h
  exact (Kind.lexeme_append_drop kind scanner.rest).symm

/-- A stretch is a piece of the text, and the place of the scanner moves over it. -/
theorem Gives.exists_read (h : Gives order scanner tokens scanner') :
    ∃ read, scanner.rest = read ++ scanner'.rest ∧
      scanner'.location = scanner.location.after (String.ofList read) := by
  induction h with
  | stop scanner => exact ⟨[], rfl, by simp⟩
  | @blanks scanner _ lexeme _ hfind _ ih =>
    obtain ⟨read, hread, hlocation⟩ := ih
    refine ⟨lexeme ++ read, ?_, ?_⟩
    · rw [rest_eq_of_find? hfind, hread, List.append_assoc]
    · rw [hlocation, location_skip, String.ofList_append, Location.after_append]
  | @token scanner _ _ lexeme _ hfind _ _ ih =>
    obtain ⟨read, hread, hlocation⟩ := ih
    refine ⟨lexeme ++ read, ?_, ?_⟩
    · rw [rest_eq_of_find? hfind, hread, List.append_assoc]
    · rw [hlocation, location_skip, String.ofList_append, Location.after_append]

/-! ### What tokens look like -/

/-- The text of a token is what its kind accepts at the front of some text, and not empty. -/
theorem Gives.exists_lexeme (h : Gives order scanner tokens scanner') :
    ∀ token ∈ tokens, token.text ≠ "" ∧ ∃ rest, token.text.toList = token.kind.lexeme rest := by
  induction h with
  | stop => simp
  | blanks _ _ ih => exact ih
  | token hfind _ _ ih =>
    intro token htoken
    rcases List.mem_cons.mp htoken with rfl | htoken
    · obtain ⟨_, hlexeme, hne⟩ := Kind.find?_eq_some hfind
      exact ⟨by simpa using hne, _, by simpa using hlexeme⟩
    · exact ih token htoken

/-- A token was found at the front of some text. -/
theorem Gives.exists_find? (h : Gives order scanner tokens scanner') :
    ∀ token ∈ tokens, ∃ rest, Kind.find? order rest = some (token.kind, token.text.toList) := by
  induction h with
  | stop => simp
  | blanks _ _ ih => exact ih
  | @token scanner _ _ _ _ hfind _ _ ih =>
    refine List.forall_mem_cons.mpr ⟨⟨scanner.rest, ?_⟩, ih⟩
    rw [hfind, String.toList_ofList]

end EmojiScript.Scanner
