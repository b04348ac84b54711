import EmojiScript.Proofs.Scanner.Run
import EmojiScript.Proofs.Text.Mark

namespace EmojiScript

/-!
# Scanning loses nothing

The tokens of a text stand in it where they say they do, one behind the other, and whatever lies
between them is blank.  This holds up to the end of the text or up to the character with which no
token begins.  Every fact is an induction over the stretch that the scanner goes over, in which
the place of the scanner marks the piece of text that it has read.

* `Tiles` — what is shown of the tokens of a text.
* `tiles_of_gives` — it holds of every stretch from the start of a text.
* `exists_read_collect` — where a whole scan ends.
* `exists_tiled_prefix` — the whole scan, with its fault.
-/

/-- Tokens are pieces of a text up to a byte, in their order and apart from each other, and every
byte before that one belongs to a token or to a blank. -/
structure Tiles (source : String) (tokens : List Token) (stop : Nat) : Prop where
  nonempty : ∀ token ∈ tokens, token.text ≠ ""
  stands : ∀ token ∈ tokens, ∃ before after,
    source = before ++ token.text ++ after ∧ token.location.Marks before
  within : ∀ token ∈ tokens, token.stop.position ≤ stop
  ordered : tokens.Pairwise fun token later =>
    token.location.position < later.location.position ∧
      token.stop.position ≤ later.location.position
  blank : ∀ before found after offset, source = before ++ String.singleton found ++ after →
    before.utf8ByteSize ≤ offset → offset < before.utf8ByteSize + found.utf8Size → offset < stop →
    (∀ token ∈ tokens, offset < token.location.position ∨ token.stop.position ≤ offset) →
    isBlank found = true

namespace Scanner

variable {order : List Kind} {scanner scanner' : Scanner} {tokens : List Token}

/-! ### Where tokens stand -/

/-- A token stands where it says it does in what a scanner has not read. -/
def Shows (scanner : Scanner) (token : Token) : Prop :=
  ∃ before after, scanner.rest = before ++ token.text.toList ++ after ∧
    token.location = scanner.location.after (String.ofList before)

/-- What stands behind a lexeme stands in the whole. -/
theorem Shows.of_skip {kind : Kind} {lexeme : List Char} {token : Token}
    (hfind : Kind.find? order scanner.rest = some (kind, lexeme))
    (h : (scanner.skip lexeme).Shows token) : scanner.Shows token := by
  obtain ⟨before, after, hrest, hlocation⟩ := h
  refine ⟨lexeme ++ before, after, ?_, ?_⟩
  · rw [rest_eq_of_find? hfind, hrest, List.append_assoc, List.append_assoc, List.append_assoc]
  · rw [hlocation, location_skip, String.ofList_append, Location.after_append]

theorem Gives.shows (h : Gives order scanner tokens scanner') :
    ∀ token ∈ tokens, scanner.Shows token := by
  induction h with
  | stop => simp
  | blanks hfind _ ih =>
    intro token htoken
    exact .of_skip hfind (ih token htoken)
  | @token scanner _ kind lexeme _ hfind _ _ ih =>
    intro token htoken
    rcases List.mem_cons.mp htoken with rfl | htoken
    · refine ⟨[], (scanner.skip lexeme).rest, ?_, by simp⟩
      simpa using rest_eq_of_find? hfind
    · exact .of_skip hfind (ih token htoken)

/-! ### Order -/

/-- A scanner never moves back. -/
theorem Gives.position_le (h : Gives order scanner tokens scanner') :
    scanner.location.position ≤ scanner'.location.position := by
  obtain ⟨read, _, hlocation⟩ := h.exists_read
  rw [hlocation, Location.position_after]
  omega

/-- Tokens lie between the places where a stretch begins and ends. -/
theorem Gives.bounds (h : Gives order scanner tokens scanner') :
    ∀ token ∈ tokens, scanner.location.position ≤ token.location.position ∧
      token.stop.position ≤ scanner'.location.position := by
  induction h with
  | stop => simp
  | blanks _ _ ih =>
    intro token htoken
    have hbounds := ih token htoken
    rw [location_skip, Location.position_after] at hbounds
    omega
  | @token scanner scanner' kind lexeme _ _ _ hrest ih =>
    intro token htoken
    rcases List.mem_cons.mp htoken with rfl | htoken
    · exact ⟨Nat.le_refl _, hrest.position_le⟩
    · have hbounds := ih token htoken
      rw [location_skip, Location.position_after] at hbounds
      omega

/-- A token ends before the next one begins. -/
theorem Gives.ordered (h : Gives order scanner tokens scanner') :
    tokens.Pairwise fun token later => token.location.position < later.location.position ∧
      token.stop.position ≤ later.location.position := by
  induction h with
  | stop => exact .nil
  | blanks _ _ ih => exact ih
  | @token scanner scanner' kind lexeme tokens hfind _ hrest ih =>
    -- every later token comes out of the stretch behind this one
    refine .cons ?_ ih
    intro later hlater
    have hstop : scanner.location.position + (String.ofList lexeme).utf8ByteSize ≤
        later.location.position := (hrest.bounds later hlater).1
    have hne : (String.ofList lexeme).utf8ByteSize ≠ 0 := by
      obtain ⟨_, _, hne⟩ := Kind.find?_eq_some hfind
      simpa using hne
    refine ⟨?_, hstop⟩
    show scanner.location.position < later.location.position
    omega

/-! ### Gaps -/

/-- A character behind a stretch of text stands within the stretch or behind all of it. -/
theorem append_eq_append_cons {read rest before after : List Char} {found : Char}
    (h : read ++ rest = before ++ found :: after) :
    (∃ more, before = read ++ more ∧ rest = more ++ found :: after) ∨
      ∃ more, read = before ++ found :: more := by
  rcases List.append_eq_append_iff.mp h with ⟨more, hbefore, hrest⟩ | ⟨more, hread, hafter⟩
  · exact .inl ⟨more, hbefore, hrest⟩
  · cases more with
    | nil => exact .inl ⟨[], by simpa using hread.symm, by simpa using hafter.symm⟩
    | cons c more =>
      obtain ⟨rfl, _⟩ := List.cons.inj hafter
      exact .inr ⟨more, hread⟩

/-- The bytes of a piece of text that holds a character. -/
theorem utf8ByteSize_append_cons (before after : List Char) (found : Char) :
    (String.ofList (before ++ found :: after)).utf8ByteSize =
      (String.ofList before).utf8ByteSize + found.utf8Size +
        (String.ofList after).utf8ByteSize := by
  have hcons : String.ofList (found :: after) = String.singleton found ++ String.ofList after := by
    rw [← String.toList_inj]
    simp
  rw [String.ofList_append, hcons, String.utf8ByteSize_append, String.utf8ByteSize_append,
    String.utf8ByteSize_singleton, Nat.add_assoc]

/-- A byte of a stretch that lies in no token belongs to a blank. -/
theorem Gives.isBlank_of_gap (h : Gives order scanner tokens scanner') {before after : List Char}
    {found : Char} {offset : Nat} (hsource : scanner.rest = before ++ found :: after)
    (hfrom : scanner.location.position + (String.ofList before).utf8ByteSize ≤ offset)
    (hto : offset < scanner.location.position + (String.ofList before).utf8ByteSize +
      found.utf8Size)
    (hstop : offset < scanner'.location.position)
    (hgap : ∀ token ∈ tokens, offset < token.location.position ∨ token.stop.position ≤ offset) :
    isBlank found = true := by
  -- every lexeme either lies before the character, which then stands in what follows, or holds it
  induction h generalizing before with
  | stop => omega
  | @blanks scanner _ lexeme _ hfind _ ih =>
    rw [rest_eq_of_find? hfind] at hsource
    rcases append_eq_append_cons hsource with ⟨more, rfl, hrest⟩ | ⟨more, hlexeme⟩
    · rw [String.ofList_append, String.utf8ByteSize_append] at hfrom hto
      refine ih hrest ?_ ?_ hstop hgap
      · rw [location_skip, Location.position_after]
        omega
      · rw [location_skip, Location.position_after]
        omega
    · -- the character is one of the blanks that were skipped
      obtain ⟨_, hspace, _⟩ := Kind.find?_eq_some hfind
      have hmem : found ∈ scanner.rest.takeWhile isBlank := by
        have hspace : lexeme = scanner.rest.takeWhile isBlank := hspace
        rw [← hspace, hlexeme]
        simp
      exact List.all_eq_true.mp List.all_takeWhile found hmem
  | @token scanner _ kind lexeme tokens hfind _ _ ih =>
    rw [rest_eq_of_find? hfind] at hsource
    rcases append_eq_append_cons hsource with ⟨more, rfl, hrest⟩ | ⟨more, hlexeme⟩
    · rw [String.ofList_append, String.utf8ByteSize_append] at hfrom hto
      refine ih hrest ?_ ?_ hstop ?_
      · rw [location_skip, Location.position_after]
        omega
      · rw [location_skip, Location.position_after]
        omega
      · intro token htoken
        exact hgap token (List.mem_cons_of_mem _ htoken)
    · -- the character lies in the token, and so would the byte
      have hsize := utf8ByteSize_append_cons before more found
      rw [← hlexeme] at hsize
      have hfirst : offset < scanner.location.position ∨
          scanner.location.position + (String.ofList lexeme).utf8ByteSize ≤ offset :=
        hgap _ List.mem_cons_self
      omega

/-! ### Whole texts -/

/-- The tokens of a stretch from the start of a text tile the text up to where it ends. -/
theorem tiles_of_gives {source : String}
    (h : Gives order (ofString source) tokens scanner') :
    Tiles source tokens scanner'.location.position where
  nonempty := by
    intro token htoken
    exact (h.exists_lexeme token htoken).1
  stands := by
    intro token htoken
    obtain ⟨before, after, hrest, hlocation⟩ := h.shows token htoken
    refine ⟨String.ofList before, String.ofList after, ?_, Location.marks_iff.mpr hlocation⟩
    rw [← String.toList_inj]
    simpa using hrest
  within := by
    intro token htoken
    exact (h.bounds token htoken).2
  ordered := h.ordered
  blank := by
    intro before found after offset hsource hfrom hto hstop hgap
    have hrest : (ofString source).rest = before.toList ++ found :: after.toList := by
      show source.toList = _
      rw [hsource]
      simp
    have hstart : (ofString source).location.position +
        (String.ofList before.toList).utf8ByteSize = before.utf8ByteSize := by
      rw [String.ofList_toList]
      exact Nat.zero_add _
    refine h.isBlank_of_gap hrest ?_ ?_ hstop hgap
    · rw [hstart]
      exact hfrom
    · rw [hstart]
      exact hto

/-- Where nothing is found, no kind matches. -/
theorem matchLength?_eq_none_of_find? {rest : String}
    (h : Kind.find? Kind.catalog rest.toList = none) :
    ∀ kind ∈ Kind.catalog, kind.matchLength? rest = none := by
  intro kind hkind
  have hlexeme := Kind.find?_eq_none_iff.mp h kind hkind
  rw [Kind.matchLength?, hlexeme]

/-- A text is a piece that its scan goes over and a rest, where the scan ends. -/
theorem exists_read_collect (source : String) :
    ∃ scanner' read rest, Gives Kind.catalog (ofString source) (ofString source).collect.1 scanner' ∧
      EndsWith Kind.catalog scanner' (ofString source).collect.2 ∧
      source = read ++ rest ∧ scanner'.location.Marks read ∧ scanner'.rest = rest.toList := by
  obtain ⟨scanner', hgives, hend⟩ := gives_collect source
  obtain ⟨read, hread, hlocation⟩ := hgives.exists_read
  refine ⟨scanner', String.ofList read, String.ofList scanner'.rest, hgives, hend, ?_, ?_, ?_⟩
  · rw [← String.toList_inj]
    simpa using hread
  · exact Location.marks_iff.mpr hlocation
  · rw [String.toList_ofList]

/-- **Lossless scanning.** A text is a piece that was read and a rest.  The tokens of the text tile
the piece.  Without a fault the rest is empty; a fault is that of the first character of the rest,
where no kind matches, and its place is the end of the piece. -/
theorem exists_tiled_prefix (source : String) :
    ∃ read rest, source = read ++ rest ∧
      Tiles source (ofString source).collect.1 read.utf8ByteSize ∧
      match (ofString source).collect.2 with
      | none => rest = ""
      | some fault => ∃ location found after, fault = .lex location found ∧
          location.Marks read ∧ rest = String.singleton found ++ after ∧
          ∀ kind ∈ Kind.catalog, kind.matchLength? rest = none := by
  obtain ⟨scanner', read, rest, hgives, hend, hsource, hmarks, hleft⟩ := exists_read_collect source
  refine ⟨read, rest, hsource, ?_, ?_⟩
  · rw [← hmarks.position]
    exact tiles_of_gives hgives
  · cases hfault : (ofString source).collect.2 with
    | none =>
      rw [hfault] at hend
      have hempty : scanner'.rest = [] := hend
      rw [hleft] at hempty
      exact String.toList_eq_nil_iff.mp hempty
    | some fault =>
      rw [hfault] at hend
      obtain ⟨found, after, hfound, hfind, hlex⟩ := hend
      rw [hleft] at hfound hfind
      refine ⟨scanner'.location, found, String.ofList after, hlex, hmarks, ?_, ?_⟩
      · rw [← String.toList_inj, hfound]
        simp
      · exact matchLength?_eq_none_of_find? hfind

theorem tiles_beforePercent :
    (ofString "\"é\n\"\n%").collect = ([⟨.text, "\"é\n\"", ⟨0, 1⟩⟩], some (.lex ⟨6, 3⟩ '%')) ∧
      Tiles "\"é\n\"\n%" [⟨.text, "\"é\n\"", ⟨0, 1⟩⟩] 6 := by
  have hcollect : (ofString "\"é\n\"\n%").collect =
      ([⟨.text, "\"é\n\"", ⟨0, 1⟩⟩], some (.lex ⟨6, 3⟩ '%')) := by decide +kernel
  refine ⟨hcollect, ?_⟩
  obtain ⟨read, rest, _, htiles, hfault⟩ := exists_tiled_prefix "\"é\n\"\n%"
  rw [hcollect] at htiles hfault
  obtain ⟨location, found, after, hlex, hmarks, _⟩ := hfault
  obtain ⟨rfl, _⟩ := Fault.lex.inj hlex
  have hread : 6 = read.utf8ByteSize := hmarks.position
  rw [hread]
  exact htiles

end Scanner

end EmojiScript
