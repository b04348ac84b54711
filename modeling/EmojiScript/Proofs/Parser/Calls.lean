import EmojiScript.Proofs.Parser.Steps

namespace EmojiScript

open Grammar

/-!
# One parser, many calls

A parser may be asked again after a failure.  Its cursor stays within the tokens, and the groups
that failures left open go on counting, so that every call has so many levels of nesting fewer.
Nothing else is remembered: a call gives what a new parser would give on the tokens that are left,
with as many groups counted as open.

* `Parser.afterCalls` — a parser after some calls.
* `Parser.Call` — all that a call does.
* `exists_call_afterCalls` — every call on the same parser does that.
-/

namespace Parser

/-- The parser after some more calls. -/
def afterCalls (parser : Parser) : Nat → Parser
  | 0 => parser
  | calls + 1 => (parser.afterCalls calls).parse.2

/-- A new parser on the tokens that are left, with as many groups counted as open. -/
def resumed (parser : Parser) : Parser where
  tokens := parser.rest
  depth := parser.depth

/-- What a call that reads these tokens does. -/
structure Call (parser : Parser) (read : List Token) : Prop where
  tokens : parser.parse.2.tokens = parser.tokens
  /-- The tokens that are read stand in the list, from the cursor on. -/
  stands : ∀ index < read.length, parser.cursor + index < parser.tokens.length ∧
    parser.tokens[parser.cursor + index]? = read[index]?
  cursor : parser.parse.2.cursor = parser.cursor + read.length
  cursor_le : parser.parse.2.cursor ≤ parser.tokens.length
  /-- Behind every token that is read, no more groups are open than may be, those that were left
  open before included. -/
  nests : ∀ before, before <+: read →
    parser.depth + (before.map Token.kind).count .openParen ≤
      maxNesting + (before.map Token.kind).count .closeParen
  /-- No parenthesis is closed that the call has not opened. -/
  closes : ∀ before, before <+: read →
    (before.map Token.kind).count .closeParen ≤ (before.map Token.kind).count .openParen
  depth_le : parser.parse.2.depth ≤ maxNesting
  success : ∀ program, parser.parse.1 = .ok program →
    parser.parse.2.cursor = parser.tokens.length ∧ parser.parse.2.depth = parser.depth
  /-- A failure leaves the groups counted that were opened and not closed, but for one that lacks
  its closing parenthesis. -/
  failure : ∀ fault, parser.parse.1 = .error fault → ∃ location expected,
    fault = .parse location expected ∧
    parser.parse.2.depth + (read.map Token.kind).count .closeParen +
        (if expected = .closeParen then 1 else 0) =
      parser.depth + (read.map Token.kind).count .openParen ∧
    (expected = .fewerParens → parser.parse.2.depth = maxNesting)
  /-- A new parser on the tokens that are left gives the same, and is left with the same. -/
  resumes : parser.parse.1 = parser.resumed.parse.1 ∧
    parser.parse.2.rest = parser.resumed.parse.2.rest ∧
    parser.parse.2.depth = parser.resumed.parse.2.depth

/-! ### Where a call stops -/

/-- Where the reading of a call stops. -/
def stop (parser : Parser) : Stop := Reading.run parser.depth {} parser.rest

/-- The groups that count as open where a reading fails. -/
structure Fails (base : Nat) (stop : Stop) (expected : Expectation) : Prop where
  unclosed : stop.reading.mode.unclosed + (if expected = .closeParen then 1 else 0) =
    stop.reading.mode.place.depth
  /-- Where no more groups may be opened, as many are open as may be. -/
  deepest : expected = .fewerParens → maxNesting ≤ base + stop.reading.mode.unclosed

/-- A call reads tokens step by step.  It succeeds behind all of them and between statements, or it
fails. -/
theorem exists_steps (parser : Parser) :
    ∃ read, Reading.Steps parser.depth {} read parser.stop.reading ∧
      parser.rest = read ++ parser.stop.rest ∧
      (parser.stop.failure? = none →
        parser.stop.rest = [] ∧ parser.stop.reading.mode = .statement) ∧
      ∀ expected, parser.stop.failure? = some expected → Fails parser.depth parser.stop expected := by
  obtain ⟨read, last, hsteps, ⟨hrest, hrun⟩ | ⟨token, rest, expected, hrest, hstep, hrun⟩⟩ :=
    Reading.run_cases parser.depth {} parser.rest
  · have hstop : parser.stop = ⟨last, [], last.missing?⟩ := hrun
    rw [hstop]
    refine ⟨read, hsteps, by rw [hrest, List.append_nil], ?_, ?_⟩
    · exact fun hfailure => ⟨rfl, Reading.missing?_eq_none hfailure⟩
    · intro expected hfailure
      obtain rfl := Reading.eq_expectation_of_missing? hfailure
      exact ⟨last.mode.unclosed_add, fun hdeep => absurd hdeep last.mode.expectation_ne_fewerParens⟩
  · have hstop : parser.stop = ⟨last, token :: rest, some expected⟩ := hrun
    rw [hstop]
    refine ⟨read, hsteps, hrest, nofun, ?_⟩
    rintro _ ⟨⟩
    exact ⟨Reading.unclosed_of_error hstep, fun hdeep => Reading.deepest_of_error (hdeep ▸ hstep)⟩

/-- The tokens that are left behind a call are those at which its reading stopped. -/
theorem rest_parse (parser : Parser) : parser.parse.2.rest = parser.stop.rest := by
  obtain ⟨read, _, hrest, _⟩ := parser.exists_steps
  have hsuffix : parser.stop.rest <:+ parser.tokens :=
    (List.suffix_append read _).trans (hrest ▸ List.drop_suffix _ _)
  exact (List.suffix_iff_eq_drop.mp hsuffix).symm

/-! ### A new parser on the tokens that are left -/

/-- A call succeeds or fails as its reading does. -/
theorem parse_eq_stop (parser : Parser) : parser.parse =
    (match parser.stop.failure? with
      | none => .ok (.program parser.stop.reading.done.reverse)
      | some expected => .error (.parse (parser.faultLocation parser.stop.rest) expected),
      parser.resumeAt parser.stop) := rfl

/-- The reading of a call looks at nothing but the tokens that are left and the groups counted. -/
theorem stop_resumed (parser : Parser) : parser.resumed.stop = parser.stop := rfl

/-- Where some tokens are left, the last of them is the last of all. -/
theorem faultLocation_resumed {parser : Parser} (h : parser.rest ≠ []) (rest : List Token) :
    parser.resumed.faultLocation rest = parser.faultLocation rest := by
  cases rest with
  | cons => rfl
  | nil =>
    have hlast : parser.rest.getLast? = parser.tokens.getLast? := by
      have hlt : ¬ parser.tokens.length ≤ parser.cursor := fun hle => h (List.drop_eq_nil_of_le hle)
      rw [rest, List.getLast?_drop, if_neg hlt]
    show (parser.rest.getLast?.map Token.stop).getD .start = _
    rw [hlast]
    rfl

/-- A new parser on the tokens that are left gives the same. -/
theorem parse_resumed (parser : Parser) : parser.resumed.parse.1 = parser.parse.1 := by
  rw [parse_eq_stop, parse_eq_stop, stop_resumed]
  cases hfailure : parser.stop.failure? with
  | none => rfl
  | some expected =>
    -- without any token a call succeeds
    have hrest : parser.rest ≠ [] := by
      intro hrest
      rw [stop, hrest] at hfailure
      cases hfailure
    show Except.error (Fault.parse (parser.resumed.faultLocation parser.stop.rest) expected) = _
    rw [faultLocation_resumed hrest]

/-! ### All calls -/

/-- A parser whose cursor stands within its tokens, or behind them, and that counts no more groups
as open than may be. -/
structure Valid (parser : Parser) : Prop where
  cursor_le : parser.cursor ≤ parser.tokens.length
  depth_le : parser.depth ≤ maxNesting

section Call

variable {parser : Parser} {read : List Token}

/-- The tokens of a parser are those before its cursor, those that a call reads and those that it
leaves. -/
theorem Valid.length_tokens (h : parser.Valid) (hrest : parser.rest = read ++ parser.stop.rest) :
    parser.tokens.length = parser.cursor + read.length + parser.stop.rest.length := by
  have hcursor := h.cursor_le
  have hlength : parser.rest.length = parser.tokens.length - parser.cursor := List.length_drop
  rw [hrest, List.length_append] at hlength
  omega

/-- Behind every token that a call reads, the groups that are open are those that it has opened and
not closed, and with those that were left open before they are not too many. -/
theorem Valid.exists_opened {last : Reading} (h : parser.Valid)
    (hsteps : Reading.Steps parser.depth {} read last) {before : List Token}
    (hbefore : before <+: read) :
    ∃ opened, opened + (before.map Token.kind).count .closeParen =
        (before.map Token.kind).count .openParen ∧
      parser.depth + opened ≤ maxNesting := by
  obtain ⟨between, hbetween⟩ := hsteps.exists_of_prefix hbefore
  exact ⟨between.mode.place.depth, hbetween.depth_add_count, hbetween.depth_le h.depth_le⟩

/-- **One call.** -/
theorem Valid.exists_call (h : parser.Valid) : ∃ read, parser.Call read := by
  obtain ⟨read, hsteps, hrest, hsuccess, hfailure⟩ := parser.exists_steps
  have hlength := h.length_tokens hrest
  have hopened := hsteps.depth_add_count
  have hnests : parser.depth + parser.stop.reading.mode.place.depth ≤ maxNesting :=
    hsteps.depth_le h.depth_le
  have hcursor : parser.parse.2.cursor = parser.cursor + read.length := by
    show parser.tokens.length - parser.stop.rest.length = _
    omega
  have hdepth : parser.parse.2.depth = parser.depth + parser.stop.reading.mode.unclosed := rfl
  refine ⟨read, ?_⟩
  constructor
  case tokens => rfl
  case stands =>
    intro index hindex
    have hget : parser.rest[index]? = parser.tokens[parser.cursor + index]? := List.getElem?_drop
    refine ⟨by omega, ?_⟩
    rw [← hget, hrest, List.getElem?_append_left hindex]
  case cursor => exact hcursor
  case cursor_le => omega
  case nests =>
    intro before hbefore
    obtain ⟨opened, hcount, hle⟩ := h.exists_opened hsteps hbefore
    omega
  case closes =>
    intro before hbefore
    obtain ⟨opened, hcount, _⟩ := h.exists_opened hsteps hbefore
    omega
  case depth_le =>
    have hunclosed := parser.stop.reading.mode.unclosed_add
    omega
  case success =>
    intro program hprogram
    rw [parse_eq_stop] at hprogram
    cases hnone : parser.stop.failure? with
    | some =>
      rw [hnone] at hprogram
      cases hprogram
    | none =>
      obtain ⟨hend, hmode⟩ := hsuccess hnone
      rw [hend, List.length_nil] at hlength
      refine ⟨by omega, ?_⟩
      rw [hdepth, hmode]
      rfl
  case failure =>
    intro fault hfault
    rw [parse_eq_stop] at hfault
    cases hsome : parser.stop.failure? with
    | none =>
      rw [hsome] at hfault
      cases hfault
    | some expected =>
      rw [hsome] at hfault
      obtain ⟨hunclosed, hdeepest⟩ := hfailure expected hsome
      refine ⟨_, expected, (Except.error.inj hfault).symm, by omega, fun hdeep => ?_⟩
      have hdeep := hdeepest hdeep
      omega
  case resumes =>
    refine ⟨parser.parse_resumed.symm, ?_, rfl⟩
    rw [rest_parse, rest_parse, stop_resumed]

/-- A call leaves a valid parser. -/
theorem Call.valid (h : parser.Call read) : parser.parse.2.Valid where
  cursor_le := h.tokens ▸ h.cursor_le
  depth_le := h.depth_le

end Call

theorem valid_afterCalls (tokens : List Token) (calls : Nat) :
    ((ofTokens tokens).afterCalls calls).Valid := by
  induction calls with
  | zero => exact ⟨Nat.zero_le _, Nat.zero_le _⟩
  | succ calls ih =>
    obtain ⟨read, hcall⟩ := ih.exists_call
    exact hcall.valid

end Parser

/-- **One parser, many calls.** After any number of calls, of which some may have failed, a further
call on a parser of any tokens reads tokens from its cursor on, never opens more groups than may be
open, and leaves those counted that a failure left open; and it gives what a new parser gives on
the tokens that are left, with as many groups counted as open. -/
theorem exists_call_afterCalls (tokens : List Token) (calls : Nat) :
    ∃ read, ((Parser.ofTokens tokens).afterCalls calls).Call read :=
  (Parser.valid_afterCalls tokens calls).exists_call

/-- Of the two groups of `print ((1`, the one that lacks its closing parenthesis does not count any
more after the failure. -/
example : ((Parser.ofTokens [⟨.print, "print", ⟨0, 1⟩⟩, ⟨.openParen, "(", ⟨6, 1⟩⟩,
    ⟨.openParen, "(", ⟨7, 1⟩⟩, ⟨.number, "1", ⟨8, 1⟩⟩]).afterCalls 1).depth = 1 := rfl

end EmojiScript
