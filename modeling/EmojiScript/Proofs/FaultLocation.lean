import EmojiScript.Proofs.Scanner.Tiling
import EmojiScript.Proofs.Source

namespace EmojiScript

/-!
# Where static faults are reported

The place of a static fault comes from the scanner, from the token at which a reading stopped, or
from the end of the last token where the tokens ran out.  Its position is always the end of a piece
of the source.  Its line is that of its position but for one case: the end of the last token is
reported with the line on which the token begins, and so with too small a line where the text of
the token holds a newline.

* `RanOutBehindLines` — that case.
* `compile_fault_location` — the line is right exactly outside it.
* `compile_openText` — a source on which the line is wrong.
-/

/-! ### Where a scan and a reading stop -/

/-- The tokens of a source tile a piece of it. -/
theorem exists_tiles_of_tokenize {source : String} {tokens : List Token}
    (h : tokenize source = .ok tokens) : ∃ stop, Tiles source tokens stop := by
  obtain ⟨scanner', hgives, _⟩ := gives_of_tokenize h
  exact ⟨_, Scanner.tiles_of_gives hgives⟩

/-- A scan fails at the end of a piece of the source. -/
theorem exists_marks_of_tokenize {source : String} {fault : Fault}
    (h : tokenize source = .error fault) :
    ∃ location found before after, fault = .lex location found ∧
      source = before ++ after ∧ location.Marks before := by
  obtain ⟨scanner', read, rest, _, hend, hsource, hmarks, _⟩ := Scanner.exists_read_collect source
  unfold tokenize at h
  split at h
  next => cases h
  next hcollect =>
    obtain rfl := Except.error.inj h
    rw [hcollect] at hend
    obtain ⟨found, _, _, _, hlex⟩ := hend
    exact ⟨scanner'.location, found, read, rest, hlex, hsource, hmarks⟩

/-- A reading stops at one of the tokens or behind all of them. -/
theorem Reading.rest_run_suffix (base : Nat) (reading : Reading) (tokens : List Token) :
    (reading.run base tokens).rest <:+ tokens := by
  induction tokens generalizing reading with
  | nil => exact List.suffix_refl []
  | cons token rest ih =>
    unfold Reading.run
    split
    next next _ => exact (ih next).trans (List.suffix_cons token rest)
    next => exact List.suffix_refl _

/-- A parser fails in front of one of the tokens or behind all of them. -/
theorem exists_suffix_of_parse {tokens : List Token} {fault : Fault}
    (h : parse tokens = .error fault) :
    ∃ rest expected, rest <:+ tokens ∧
      fault = .parse ((Parser.ofTokens tokens).faultLocation rest) expected := by
  have hsuffix := Reading.rest_run_suffix 0 {} tokens
  simp only [parse, Parser.parse] at h
  split at h
  next => cases h
  next expected _ =>
    obtain rfl := Except.error.inj h
    exact ⟨_, expected, hsuffix, rfl⟩

/-! ### The line of a fault -/

/-- A place behind the last token of a source, whose text holds a newline. -/
def RanOutBehindLines (source : String) (location : Location) : Prop :=
  ∃ tokens last, tokenize source = .ok tokens ∧ tokens.getLast? = some last ∧
    location.position = last.stop.position ∧ newlines last.text ≠ 0

/-- Every token begins before the last one ends. -/
theorem Tiles.position_lt_stop {source : String} {tokens : List Token} {stop : Nat}
    {token last : Token} (h : Tiles source tokens stop) (htoken : token ∈ tokens)
    (hlast : tokens.getLast? = some last) :
    token.location.position < last.stop.position := by
  have hsize : last.text.utf8ByteSize ≠ 0 := by
    have hne := h.nonempty last (List.mem_of_getLast? hlast)
    simpa using hne
  have hstop : last.stop.position = last.location.position + last.text.utf8ByteSize := rfl
  -- an earlier token ends before the last one begins, and the last one is not empty
  obtain ⟨init, rfl⟩ := List.getLast?_eq_some_iff.mp hlast
  rcases List.mem_append.mp htoken with hinit | hend
  · have hbefore := (List.pairwise_append.mp h.ordered).2.2 token hinit last (by simp)
    omega
  · obtain rfl : token = last := by simpa using hend
    omega

/-- A place is the end of a piece of a source, on the right line but for one case. -/
structure Location.Placed (source : String) (location : Location) (before after : String) :
    Prop where
  pieces : source = before ++ after
  position : location.position = before.utf8ByteSize
  line : location.line = 1 + newlines before ↔ ¬ RanOutBehindLines source location

/-- The scanner counts its place. -/
theorem Location.placed_of_tokenize {source : String} {fault : Fault} {location : Location}
    {before after : String} (h : tokenize source = .error fault)
    (hsource : source = before ++ after) (hmarks : location.Marks before) :
    location.Placed source before after where
  pieces := hsource
  position := hmarks.position
  line := by
    refine iff_of_true hmarks.line ?_
    rintro ⟨_, _, htokens, _⟩
    rw [h] at htokens
    cases htokens

/-- A reading reports the place of a token, or the end of the last one. -/
theorem Parser.exists_placed {source : String} {tokens rest : List Token}
    (h : tokenize source = .ok tokens) (hrest : rest <:+ tokens) :
    ∃ before after, ((Parser.ofTokens tokens).faultLocation rest).Placed source before after := by
  obtain ⟨stop, htiles⟩ := exists_tiles_of_tokenize h
  cases rest with
  | cons token rest =>
    -- no other token of the source ends where this one begins: the place is not behind the last
    have htoken : token ∈ tokens := hrest.subset List.mem_cons_self
    obtain ⟨before, after, hsource, hmarks⟩ := htiles.stands token htoken
    refine ⟨before, token.text ++ after, ?_, hmarks.position, iff_of_true hmarks.line ?_⟩
    · rw [hsource, String.append_assoc]
    · rintro ⟨tokens', last, htokens, hlast, hposition, _⟩
      obtain rfl := Except.ok.inj (h.symm.trans htokens)
      have hlt := htiles.position_lt_stop htoken hlast
      have heq : token.location.position = last.stop.position := hposition
      omega
  | nil =>
    cases hlast : tokens.getLast? with
    | none =>
      have hlocation : (Parser.ofTokens tokens).faultLocation [] = .start := by
        show (tokens.getLast?.map Token.stop).getD .start = .start
        rw [hlast]
        rfl
      rw [hlocation]
      -- a source without tokens is empty but for blanks, and its fault is reported at the start
      refine ⟨"", source, by simp, rfl, iff_of_true rfl ?_⟩
      rintro ⟨tokens', last, htokens, hlast', _⟩
      obtain rfl := Except.ok.inj (h.symm.trans htokens)
      rw [hlast] at hlast'
      cases hlast'
    | some last =>
      have hlocation : (Parser.ofTokens tokens).faultLocation [] = last.stop := by
        show (tokens.getLast?.map Token.stop).getD .start = last.stop
        rw [hlast]
        rfl
      obtain ⟨before, after, hsource, hmarks⟩ := htiles.stands last (List.mem_of_getLast? hlast)
      rw [hlocation]
      have hranOut : RanOutBehindLines source last.stop ↔ newlines last.text ≠ 0 := by
        constructor
        · rintro ⟨tokens', last', htokens, hlast', _, hlines⟩
          obtain rfl := Except.ok.inj (h.symm.trans htokens)
          obtain rfl := Option.some.inj (hlast.symm.trans hlast')
          exact hlines
        · exact fun hlines => ⟨tokens, last, h, hlast, rfl, hlines⟩
      refine ⟨before ++ last.text, after, hsource, ?_, ?_⟩
      · rw [String.utf8ByteSize_append, ← hmarks.position]
        rfl
      · -- the line is the one on which the token begins
        have hline : last.stop.line = 1 + newlines before := hmarks.line
        rw [hranOut, hline, newlines_append]
        omega

/-- **Places of static faults.** A source that is no program has a fault with a place.  Its position
is the end of a piece of the source, and its line is one more than the newlines of that piece unless
the tokens ran out behind a token that holds a newline. -/
theorem compile_fault_location (source : String) (fault : Fault)
    (h : compile source = .error fault) :
    ∃ location before after,
      ((∃ found, fault = .lex location found) ∨ ∃ expected, fault = .parse location expected) ∧
      source = before ++ after ∧ location.position = before.utf8ByteSize ∧
      (location.line = 1 + newlines before ↔ ¬ RanOutBehindLines source location) := by
  cases htokens : tokenize source with
  | error lexical =>
    obtain rfl := Except.error.inj (h.symm.trans (compile_of_tokenize_error htokens))
    obtain ⟨location, found, before, after, hlex, hsource, hmarks⟩ :=
      exists_marks_of_tokenize htokens
    have hplaced := Location.placed_of_tokenize htokens hsource hmarks
    exact ⟨location, before, after, .inl ⟨found, hlex⟩, hplaced.pieces, hplaced.position,
      hplaced.line⟩
  | ok tokens =>
    have hparse : parse tokens = .error fault := by
      rw [← compile_of_tokenize htokens, h]
    obtain ⟨rest, expected, hrest, hfault⟩ := exists_suffix_of_parse hparse
    obtain ⟨before, after, hplaced⟩ := Parser.exists_placed htokens hrest
    exact ⟨_, before, after, .inr ⟨expected, hfault⟩, hplaced.pieces, hplaced.position,
      hplaced.line⟩

theorem compile_fault_location_unended :
    compile "\nprint 1" = .error (.parse ⟨8, 2⟩ .hash) ∧
      ∃ before after, "\nprint 1" = before ++ after ∧ 8 = before.utf8ByteSize ∧
        (2 = 1 + newlines before ↔ ¬ RanOutBehindLines "\nprint 1" ⟨8, 2⟩) := by
  have hcollect : (Scanner.ofString "\nprint 1").collect =
      ([⟨.print, "print", ⟨1, 2⟩⟩, ⟨.number, "1", ⟨7, 2⟩⟩], none) := by decide +kernel
  have hcompile : compile "\nprint 1" = .error (.parse ⟨8, 2⟩ .hash) := by
    rw [compile_of_tokenize (tokenize_of_collect hcollect)]
    rfl
  refine ⟨hcompile, ?_⟩
  obtain ⟨location, before, after, hfault, hsource, hposition, hline⟩ :=
    compile_fault_location "\nprint 1" _ hcompile
  obtain rfl : location = ⟨8, 2⟩ := by
    rcases hfault with ⟨found, hlex⟩ | ⟨expected, hparse⟩
    · cases hlex
    · exact (Fault.parse.inj hparse).1.symm
  exact ⟨before, after, hsource, hposition, hline⟩

/-- A statement without its end, whose last token begins on line 1 and ends on line 2. -/
def openText : String := "print \"a\nb\""

/-- The place behind `openText` has the line on which its last token begins. -/
theorem compile_openText :
    compile openText = .error (.parse ⟨11, 1⟩ .hash) ∧
      ¬ ∃ before after, openText = before ++ after ∧ 11 = before.utf8ByteSize ∧
        1 = 1 + newlines before := by
  have hcollect : (Scanner.ofString openText).collect =
      ([⟨.print, "print", ⟨0, 1⟩⟩, ⟨.text, "\"a\nb\"", ⟨6, 1⟩⟩], none) := by decide +kernel
  have hcompile : compile openText = .error (.parse ⟨11, 1⟩ .hash) := by
    rw [compile_of_tokenize (tokenize_of_collect hcollect)]
    rfl
  refine ⟨hcompile, ?_⟩
  rintro ⟨before, after, hsource, hposition, hline⟩
  have hsize : before.utf8ByteSize + after.utf8ByteSize = 11 := by
    rw [← String.utf8ByteSize_append, ← hsource]
    rfl
  -- the position is the end of the source, and there is but one way to split it there
  have hafter : after = "" := String.utf8ByteSize_eq_zero_iff.mp (by omega)
  have hwhole : openText = before := by rw [hsource, hafter, String.append_empty]
  have hnewlines : newlines openText = 1 := by decide +kernel
  rw [hwhole] at hnewlines
  omega

end EmojiScript
