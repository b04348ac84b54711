import EmojiScript.Proofs.Scanner.Append
import EmojiScript.Proofs.Scanner.Tiling
import EmojiScript.Proofs.Text.Slice
import EmojiScript.Proofs.Token.Seams

namespace EmojiScript

/-!
# One scanner, many calls

A scanner that is asked again and again gives the tokens of its text one by one, then its fault if
there is one, and nothing from then on.  Together these are what `tokenize` gives.  A fault does
not reach back: cut off in front of it, the text has exactly the tokens that were given before.

* `Scanner.nextIn_of_token` and its like — one call, case by case.
* `Scanner.Exhausted` — a scanner that gives nothing any more.
* `Scanner.answer_afterCalls` — every call on one scanner.
* `Scanner.Gives.cut` — a stretch does not depend on the text behind it.
* `calls_agree_with_tokenize` — whole texts.
-/

namespace Scanner

variable {order : List Kind} {scanner scanner' : Scanner} {tokens : List Token}
  {fault? : Option Fault} {kind : Kind} {lexeme : List Char}

/-! ### One call -/

theorem nextIn_of_failed (order : List Kind) (h : scanner.failed = true) :
    scanner.nextIn order = (none, scanner) := by
  rw [nextIn, if_pos h]

theorem nextIn_of_rest_eq_nil (order : List Kind) (h : scanner.rest = []) :
    scanner.nextIn order = (none, scanner) := by
  rw [nextIn]
  split
  next => rfl
  next =>
    split
    next => rfl
    next hrest => cases h.symm.trans hrest

theorem nextIn_of_stuck {found : Char} {after : List Char} (hfailed : scanner.failed = false)
    (hrest : scanner.rest = found :: after) (hfind : Kind.find? order scanner.rest = none) :
    scanner.nextIn order =
      (some (.error (.lex scanner.location found)), { scanner with failed := true }) := by
  rw [nextIn, if_neg (by simp [hfailed])]
  split
  next hnil => cases hnil.symm.trans hrest
  next hcons =>
    obtain ⟨rfl, _⟩ := List.cons.inj (hrest.symm.trans hcons)
    split
    next => rfl
    next hfind' => cases hfind.symm.trans hfind'

/-- Where something is found, the text has not ended. -/
theorem rest_ne_nil_of_find? (h : Kind.find? order scanner.rest = some (kind, lexeme)) :
    scanner.rest ≠ [] := by
  intro hnil
  rw [hnil, Kind.find?_nil] at h
  cases h

theorem nextIn_of_blanks (hfailed : scanner.failed = false)
    (hfind : Kind.find? order scanner.rest = some (.space, lexeme)) :
    scanner.nextIn order = (scanner.skip lexeme).nextIn order := by
  rw [nextIn, if_neg (by simp [hfailed])]
  split
  next hnil => exact absurd hnil (rest_ne_nil_of_find? hfind)
  next =>
    split
    next hfind' => cases hfind.symm.trans hfind'
    next hfind' =>
      obtain ⟨rfl, rfl⟩ := Prod.mk.inj (Option.some.inj (hfind.symm.trans hfind'))
      rw [if_pos rfl]

theorem nextIn_of_token (hfailed : scanner.failed = false)
    (hfind : Kind.find? order scanner.rest = some (kind, lexeme)) (hkind : kind ≠ .space) :
    scanner.nextIn order =
      (some (.ok ⟨kind, String.ofList lexeme, scanner.location⟩), scanner.skip lexeme) := by
  rw [nextIn, if_neg (by simp [hfailed])]
  split
  next hnil => exact absurd hnil (rest_ne_nil_of_find? hfind)
  next =>
    split
    next hfind' => cases hfind.symm.trans hfind'
    next hfind' =>
      obtain ⟨rfl, rfl⟩ := Prod.mk.inj (Option.some.inj (hfind.symm.trans hfind'))
      rw [if_neg hkind]

/-! ### Many calls -/

/-- The scanner after some more calls. -/
def afterCalls (scanner : Scanner) : Nat → Scanner
  | 0 => scanner
  | calls + 1 => (scanner.afterCalls calls).next.2

/-- What the next call behind so many others gives. -/
def answer (scanner : Scanner) (calls : Nat) : Option (Except Fault Token) :=
  (scanner.afterCalls calls).next.1

theorem afterCalls_succ (scanner : Scanner) (calls : Nat) :
    scanner.afterCalls (calls + 1) = scanner.next.2.afterCalls calls := by
  induction calls with
  | zero => rfl
  | succ calls ih => exact congrArg (fun scanner : Scanner => scanner.next.2) ih

@[simp] theorem answer_zero (scanner : Scanner) : scanner.answer 0 = scanner.next.1 := rfl

theorem answer_succ (scanner : Scanner) (calls : Nat) :
    scanner.answer (calls + 1) = scanner.next.2.answer calls := by
  rw [answer, answer, afterCalls_succ]

/-- A scanner that has failed or has nothing left to read. -/
def Exhausted (scanner : Scanner) : Prop := scanner.failed = true ∨ scanner.rest = []

theorem Exhausted.next_eq (h : scanner.Exhausted) : scanner.next = (none, scanner) := by
  rcases h with hfailed | hrest
  · exact nextIn_of_failed _ hfailed
  · exact nextIn_of_rest_eq_nil _ hrest

/-- An exhausted scanner gives nothing for ever. -/
theorem Exhausted.answer_eq (h : scanner.Exhausted) (calls : Nat) :
    scanner.answer calls = none := by
  induction calls with
  | zero => rw [answer_zero, h.next_eq]
  | succ calls ih => rw [answer_succ, h.next_eq, ih]

/-- A call that gives no token exhausts the scanner. -/
theorem exhausted_of_nextIn (h : ∀ token, (scanner.nextIn order).1 ≠ some (.ok token)) :
    (scanner.nextIn order).2.Exhausted := by
  fun_induction nextIn order scanner with
  | case1 scanner hfailed => exact .inl hfailed
  | case2 scanner _ hrest => exact .inr hrest
  | case3 => exact .inl rfl
  | case4 _ _ _ _ _ _ _ ih => exact ih h
  | case5 => exact absurd rfl (h _)

/-- Some tokens, and a fault behind them if there is one. -/
def answers (tokens : List Token) (fault? : Option Fault) : List (Except Fault Token) :=
  tokens.map .ok ++ fault?.toList.map .error

/-- Behind a call that gives no token there is nothing more to give. -/
theorem answer_of_no_token (h : ∀ token, scanner.next.1 ≠ some (.ok token)) (calls : Nat) :
    scanner.answer calls = scanner.next.1.toList[calls]? := by
  cases calls with
  | zero => cases hnext : scanner.next.1 <;> simp [hnext]
  | succ calls =>
    have hexhausted : scanner.next.2.Exhausted := exhausted_of_nextIn h
    rw [answer_succ, hexhausted.answer_eq]
    cases scanner.next.1 <;> rfl

theorem answer_of_collectOnto (found : List Token) (scanner : Scanner) :
    ∃ tokens, (collectOnto Kind.catalog found scanner).1 = found.reverse ++ tokens ∧
      ∀ calls, scanner.answer calls =
        (answers tokens (collectOnto Kind.catalog found scanner).2)[calls]? := by
  fun_induction collectOnto Kind.catalog found scanner with
  | case1 found scanner scanner' hnext =>
    have hnone : scanner.next.1 = none := congrArg Prod.fst hnext
    refine ⟨[], by simp, fun calls => ?_⟩
    rw [answer_of_no_token (by simp [hnone]), hnone]
    rfl
  | case2 found scanner fault failed hnext =>
    have hfault : scanner.next.1 = some (.error fault) := congrArg Prod.fst hnext
    refine ⟨[], by simp, fun calls => ?_⟩
    rw [answer_of_no_token (by simp [hfault]), hfault]
    rfl
  | case3 found scanner token scanner' hnext ih =>
    -- the later calls are those on the scanner behind this one, whose answers come one place later
    have htoken : scanner.next = (some (.ok token), scanner') := hnext
    obtain ⟨tokens, htokens, hcalls⟩ := ih
    refine ⟨token :: tokens, by simpa using htokens, fun calls => ?_⟩
    cases calls with
    | zero => rw [answer_zero, htoken]; rfl
    | succ calls =>
      rw [answer_succ, htoken, hcalls]
      rfl

/-- **Every call.** The calls on one scanner give one by one what is collected from it, and nothing
behind that. -/
theorem answer_eq (scanner : Scanner) (calls : Nat) :
    scanner.answer calls = (answers scanner.collect.1 scanner.collect.2)[calls]? := by
  obtain ⟨tokens, htokens, hcalls⟩ := answer_of_collectOnto [] scanner
  obtain rfl : scanner.collect.1 = tokens := htokens
  exact hcalls calls

/-! ### A stretch without the text behind it -/

/-- Where a stretch begins with a lexeme, it does so without the text behind the stretch. -/
theorem Gives.cut_lexeme {short : Scanner}
    (hgives : Gives order (scanner.skip lexeme) tokens scanner')
    (hfind : Kind.find? order scanner.rest = some (kind, lexeme))
    (hshort : scanner = short.extend scanner'.rest) :
    Kind.find? order short.rest = some (kind, lexeme) ∧
      scanner.skip lexeme = (short.skip lexeme).extend scanner'.rest := by
  obtain ⟨read, hread, _⟩ := hgives.exists_read
  have hrest : scanner.rest = lexeme ++ (read ++ scanner'.rest) := by
    rw [← hread]
    exact rest_eq_of_find? hfind
  have hkept : short.rest = lexeme ++ read := by
    have hall : short.rest ++ scanner'.rest = lexeme ++ (read ++ scanner'.rest) := by
      rw [← hrest, hshort]
      rfl
    rw [← List.append_assoc] at hall
    exact List.append_cancel_right hall
  constructor
  · rw [hrest] at hfind
    rw [hkept]
    exact Kind.find?_cut hfind
  · rw [hshort]
    exact skip_extend ⟨read, hkept.symm⟩ _

/-- **A stretch without the text behind it.** It gives the same tokens where the text ends with
it. -/
theorem Gives.cut (h : Gives order scanner tokens scanner') {short : Scanner}
    (hshort : scanner = short.extend scanner'.rest) :
    Gives order short tokens { scanner' with rest := [] } := by
  induction h generalizing short with
  | stop scanner =>
    -- nothing is read, so that all of the text stands behind the stretch
    have hnone : short.rest = [] := by
      have hrest : scanner.rest = short.rest ++ scanner.rest := congrArg Scanner.rest hshort
      simpa using hrest
    have hends : { scanner with rest := [] } = short := by
      rw [hshort, extend, ← hnone]
    rw [hends]
    exact .stop short
  | blanks hfind hgives ih =>
    obtain ⟨hfind', hskip⟩ := hgives.cut_lexeme hfind hshort
    exact .blanks hfind' (ih hskip)
  | @token scanner _ _ _ _ hfind hkind hgives ih =>
    obtain ⟨hfind', hskip⟩ := hgives.cut_lexeme hfind hshort
    have hlocation : scanner.location = short.location := by rw [hshort, extend]
    rw [hlocation]
    exact .token hfind' hkind (ih hskip)

end Scanner

/-- The piece of a text that was scanned has the tokens that the scan gave. -/
theorem tokenize_of_gives {source before after : String} {tokens : List Token} {scanner : Scanner}
    (h : Scanner.Gives Kind.catalog (.ofString source) tokens scanner)
    (hsource : source = before ++ after) (hrest : scanner.rest = after.toList) :
    tokenize before = .ok tokens := by
  have hshort : Scanner.ofString source = (Scanner.ofString before).extend scanner.rest := by
    rw [hrest, hsource, Scanner.ofString, String.toList_append]
    rfl
  exact tokenize_eq_ok_iff.mpr ⟨_, h.cut hshort, rfl⟩

/-- **One scanner, many calls.** The calls on a scanner of a text give some tokens, then a fault if
there is one, and nothing for ever.  If there is none, the text has exactly these tokens; a fault is
that of the text, and the text in front of its place has exactly these tokens. -/
theorem calls_agree_with_tokenize (source : String) :
    ∃ tokens fault?,
      (∀ calls, (Scanner.ofString source).answer calls = (Scanner.answers tokens fault?)[calls]?) ∧
      match fault? with
      | none => tokenize source = .ok tokens
      | some fault => tokenize source = .error fault ∧
          ∃ location found before, fault = .lex location found ∧
            slice? source 0 location.position = some before ∧ tokenize before = .ok tokens := by
  obtain ⟨scanner', before, after, hgives, hend, hsource, hmarks, hrest⟩ :=
    Scanner.exists_read_collect source
  have hcalls := (Scanner.ofString source).answer_eq
  generalize (Scanner.ofString source).collect.1 = tokens at hgives hcalls
  generalize (Scanner.ofString source).collect.2 = fault? at hend hcalls
  have hwhole := tokenize_of_completes ⟨scanner', hgives, hend⟩
  refine ⟨tokens, fault?, hcalls, ?_⟩
  cases fault? with
  | none => exact hwhole
  | some fault =>
    obtain ⟨found, _, _, _, hlex⟩ := hend
    refine ⟨hwhole, scanner'.location, found, before, hlex, ?_, ?_⟩
    · rw [hmarks.position]
      exact slice?_eq_some_iff.mpr ⟨"", after, by simpa using hsource, rfl, by simp⟩
    · exact tokenize_of_gives hgives hsource hrest

example : (Scanner.ofString "a $ b").answer 1 = some (.error (.lex ⟨2, 1⟩ '$')) ∧
    (Scanner.ofString "a $ b").answer 2 = none ∧
    tokenize "a " = .ok [⟨.word, "a", ⟨0, 1⟩⟩] := by decide +kernel

end EmojiScript
