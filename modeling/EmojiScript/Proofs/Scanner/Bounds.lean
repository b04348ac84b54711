import EmojiScript.Proofs.Scanner.Calls
import EmojiScript.Proofs.Token.Pattern

namespace EmojiScript

/-!
# A scanner stays within its text

Wherever a scan comes to, between two calls or within one, the scanner stands where its text may be
cut, and what it has left to read is the text from there on.  So every lexeme that is found there
can be cut out of the text.  A call that gives a token moves on, and any other call is the last one
that gives anything.

* `Scanner.Visits` — where a scan comes to.
* `Scanner.visits_afterCalls` — it comes behind any number of calls.
* `Scanner.Visits.standsIn` — the scanner has read a beginning of its text there.
* `Scanner.Bounded` — what follows for the pieces of the text that are cut out, and for the next
  call.
* `slices_exist_and_calls_advance` — all scanners, and all kinds on any text.
-/

namespace Scanner

/-- A scan of `source` comes to this scanner. -/
inductive Visits (source : String) : Scanner → Prop where
  | start : Visits source (ofString source)
  /-- Behind a call. -/
  | call {scanner : Scanner} : Visits source scanner → Visits source scanner.next.2
  /-- Within a call, behind a lexeme. -/
  | lexeme {scanner : Scanner} {kind : Kind} {lexeme : List Char} : Visits source scanner →
      scanner.failed = false → Kind.find? Kind.catalog scanner.rest = some (kind, lexeme) →
      Visits source (scanner.skip lexeme)

/-- The scanner has read a beginning of `source` and has the rest before it. -/
def StandsIn (source : String) (scanner : Scanner) : Prop :=
  ∃ before, source = before ++ String.ofList scanner.rest ∧
    before.utf8ByteSize = scanner.location.position

/-- What holds of a scanner wherever a scan of `source` comes to. -/
structure Bounded (source : String) (scanner : Scanner) : Prop where
  position_le : scanner.location.position ≤ source.utf8ByteSize
  isBoundary : IsBoundary source scanner.location.position
  /-- What is left to read can be cut off. -/
  rest : slice? source scanner.location.position source.utf8ByteSize =
    some (String.ofList scanner.rest)
  /-- Whatever a kind accepts at its front can be cut out. -/
  lexeme : ∀ (kind : Kind) length,
    kind.matchLength? (String.ofList scanner.rest) = some length →
      slice? source scanner.location.position (scanner.location.position + length) =
        some (String.ofList (kind.lexeme scanner.rest))
  /-- A call that gives a token moves on. -/
  advances : ∀ token, scanner.next.1 = some (.ok token) →
    scanner.location.position < scanner.next.2.location.position
  /-- Any other call is the last one that gives anything. -/
  ends : (∀ token, scanner.next.1 ≠ some (.ok token)) →
    ∀ calls, scanner.next.2.answer calls = none

variable {source : String} {scanner scanner' : Scanner} {order : List Kind} {token : Token}
  {read : List Char}

/-! ### What is read -/

/-- A scan comes to the scanner behind any number of calls. -/
theorem visits_afterCalls (source : String) (calls : Nat) :
    Visits source ((ofString source).afterCalls calls) := by
  induction calls with
  | zero => exact .start
  | succ calls ih => exact ih.call

/-- A call goes over a piece of what is left. -/
theorem exists_read_nextIn (order : List Kind) (scanner : Scanner) :
    ∃ read, scanner.rest = read ++ (scanner.nextIn order).2.rest ∧
      (scanner.nextIn order).2.location = scanner.location.after (String.ofList read) := by
  cases hfailed : scanner.failed with
  | true =>
    rw [nextIn_of_failed order hfailed]
    exact ⟨[], rfl, by simp⟩
  | false =>
    -- whatever the call gives, a stretch of the scan leads to it
    have hanswers := answers_nextIn order scanner hfailed
    cases hnext : scanner.nextIn order with
    | mk answer scanner' =>
      rw [hnext] at hanswers
      rcases answer with _ | fault | token
      · exact hanswers.1.exists_read
      · obtain ⟨stuck, hgives, _, rfl⟩ := hanswers
        exact hgives.exists_read
      · exact Gives.exists_read hanswers

theorem standsIn_ofString (source : String) : StandsIn source (ofString source) :=
  ⟨"", by simp, rfl⟩

/-- Behind a piece of what is left the scanner stands in the same text. -/
theorem StandsIn.of_read (h : StandsIn source scanner)
    (hrest : scanner.rest = read ++ scanner'.rest)
    (hlocation : scanner'.location = scanner.location.after (String.ofList read)) :
    StandsIn source scanner' := by
  obtain ⟨before, hsource, hposition⟩ := h
  refine ⟨before ++ String.ofList read, ?_, ?_⟩
  · rw [hsource, hrest, String.ofList_append, String.append_assoc]
  · rw [hlocation, Location.position_after, String.utf8ByteSize_append, hposition]

/-- **Wherever a scan comes to**, the scanner has read a beginning of its text. -/
theorem Visits.standsIn (h : Visits source scanner) : StandsIn source scanner := by
  induction h with
  | start => exact standsIn_ofString source
  | @call scanner _ ih =>
    obtain ⟨read, hrest, hlocation⟩ := exists_read_nextIn Kind.catalog scanner
    exact ih.of_read hrest hlocation
  | lexeme _ _ hfind ih => exact ih.of_read (rest_eq_of_find? hfind) rfl

/-! ### The next call -/

/-- A call that gives a token moves on. -/
theorem position_lt_of_next (h : scanner.next.1 = some (.ok token)) :
    scanner.location.position < scanner.next.2.location.position := by
  have hshorter : scanner.next.2.rest.length < scanner.rest.length :=
    length_rest_lt_of_nextIn (Prod.ext h rfl : scanner.next = (some (.ok token), scanner.next.2))
  obtain ⟨read, hrest, hlocation⟩ := exists_read_nextIn Kind.catalog scanner
  have hne : String.ofList read ≠ "" := by
    intro hempty
    have hread : read = [] := String.ofList_eq_empty_iff.mp hempty
    rw [hread, List.nil_append, ← next] at hrest
    exact absurd hshorter (by rw [hrest]; exact Nat.lt_irrefl _)
  have hsize : (String.ofList read).utf8ByteSize ≠ 0 := mt String.utf8ByteSize_eq_zero_iff.mp hne
  have hposition : scanner.next.2.location.position =
      scanner.location.position + (String.ofList read).utf8ByteSize := by
    rw [next, hlocation, Location.position_after]
  omega

/-- What a kind accepts where the scanner stands can be cut out of the text. -/
theorem StandsIn.slice?_lexeme (h : StandsIn source scanner) {kind : Kind} {length : Nat}
    (hlength : kind.matchLength? (String.ofList scanner.rest) = some length) :
    slice? source scanner.location.position (scanner.location.position + length) =
      some (String.ofList (kind.lexeme scanner.rest)) := by
  obtain ⟨before, hsource, hposition⟩ := h
  obtain ⟨-, hsize⟩ := Kind.matchLength?_eq_some_iff_lexeme.mp hlength
  have hsplit := kind.eq_lexeme_append (String.ofList scanner.rest)
  rw [String.toList_ofList] at hsize hsplit
  rw [hsplit, ← String.append_assoc] at hsource
  refine slice?_eq_some_iff.mpr ⟨before, _, hsource, hposition, ?_⟩
  rw [String.utf8ByteSize_append, hposition, hsize]

/-- A scanner that stands in a text stays within it. -/
theorem StandsIn.bounded (h : StandsIn source scanner) : Bounded source scanner := by
  obtain ⟨before, hsource, hposition⟩ := h
  have hboundary : IsBoundary source scanner.location.position :=
    isBoundary_iff.mpr ⟨before, _, hsource, hposition⟩
  have hrest : slice? source scanner.location.position source.utf8ByteSize =
      some (String.ofList scanner.rest) :=
    slice?_eq_some_iff.mpr ⟨before, "", by simpa using hsource, hposition, by rw [← hsource]⟩
  have hends : (∀ token, scanner.next.1 ≠ some (.ok token)) →
      ∀ calls, scanner.next.2.answer calls = none := by
    intro hnone
    have hexhausted : scanner.next.2.Exhausted := exhausted_of_nextIn hnone
    exact hexhausted.answer_eq
  exact
    { position_le := hboundary.le
      isBoundary := hboundary
      rest := hrest
      lexeme := fun _ _ => StandsIn.slice?_lexeme ⟨before, hsource, hposition⟩
      advances := fun _ => position_lt_of_next
      ends := hends }

end Scanner

/-- **A scanner stays within its text.** Wherever a scan comes to, behind any number of calls and
within them, the text may be cut there, what is left to read is the rest of it, and every lexeme can
be cut out; a call moves on or is the last that gives anything.  What a kind accepts at the front of a text is not empty, ends where the text may be
cut, and is the longest beginning that has the pattern of the kind; of a text in quotes it is what
its bytes tell. -/
theorem slices_exist_and_calls_advance :
    (∀ source calls, Scanner.Visits source ((Scanner.ofString source).afterCalls calls)) ∧
    (∀ source scanner, Scanner.Visits source scanner → Scanner.Bounded source scanner) ∧
    (∀ (kind : Kind) (source : String),
      (∀ length, kind.matchLength? source = some length →
        0 < length ∧ length ≤ source.utf8ByteSize ∧ IsBoundary source length) ∧
      (∀ length, kind.matchLength? source = some length ↔ kind.Longest source length) ∧
      (kind.matchLength? source = none ↔
        ∀ before after, source = before ++ after → ¬ kind.Accepts before.toList)) ∧
    ∀ source : String,
      Kind.text.matchLength? source = Kind.quotedLength? source.toUTF8.data.toList := by
  refine ⟨Scanner.visits_afterCalls, fun source scanner h => h.standsIn.bounded,
    fun kind source => ⟨?_, ?_, ?_⟩, ?_⟩
  · intro length hlength
    have hlongest := Kind.matchLength?_eq_some_iff.mp hlength
    obtain ⟨hpos, hboundary⟩ := hlongest.pos_and_isBoundary
    exact ⟨hpos, hboundary.le, hboundary⟩
  · exact fun length => Kind.matchLength?_eq_some_iff
  · exact Kind.matchLength?_eq_none_iff
  · exact Kind.matchLength?_text

/-- A text in quotes and blanks of one byte and of three, in front of a letter that begins no
token. -/
def accentBehindBlanks : String := "\"é\" \u3000é"

theorem slices_exist_and_calls_advance_accentBehindBlanks :
    Scanner.Visits accentBehindBlanks ⟨[' ', '\u3000', 'é'], ⟨4, 1⟩, false⟩ ∧
      Scanner.Visits accentBehindBlanks ⟨['é'], ⟨8, 1⟩, false⟩ ∧
      Scanner.Bounded accentBehindBlanks ⟨['é'], ⟨8, 1⟩, false⟩ ∧
      Kind.text.matchLength? accentBehindBlanks = some 4 ∧ IsBoundary accentBehindBlanks 4 ∧
      ¬ IsBoundary accentBehindBlanks 2 := by
  obtain ⟨hcalls, hscanners, hkinds, _⟩ := slices_exist_and_calls_advance
  have hcall : (Scanner.ofString accentBehindBlanks).afterCalls 1 =
      ⟨[' ', '\u3000', 'é'], ⟨4, 1⟩, false⟩ := by decide +kernel
  have hfirst : Scanner.Visits accentBehindBlanks ⟨[' ', '\u3000', 'é'], ⟨4, 1⟩, false⟩ :=
    hcall ▸ hcalls accentBehindBlanks 1
  -- within the second call the scanner comes behind the blanks
  have hblanks : Kind.find? Kind.catalog [' ', '\u3000', 'é'] =
      some (.space, [' ', '\u3000']) := by decide +kernel
  have hvisits : Scanner.Visits accentBehindBlanks ⟨['é'], ⟨8, 1⟩, false⟩ :=
    hfirst.lexeme rfl hblanks
  have hlength : Kind.text.matchLength? accentBehindBlanks = some 4 := by decide +kernel
  refine ⟨hfirst, hvisits, hscanners _ _ hvisits, hlength, ?_, by decide +kernel⟩
  exact ((hkinds .text accentBehindBlanks).1 4 hlength).2.2

end EmojiScript
