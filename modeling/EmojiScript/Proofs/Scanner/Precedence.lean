import EmojiScript.Proofs.Scanner.Calls

namespace EmojiScript

/-!
# The order of the kinds

At most one kind accepts a beginning of a text, unless the text begins with a keyword: then exactly
this keyword does, and words do, since a keyword is a run of letters.  So it makes no difference in
which order the kinds are tried, as long as the keywords are tried before words; and in any other
order some text is scanned differently.

* `Kind.keywordSpellings` — the kinds that need an order.
* `Kind.lexeme_ne_nil_iff_of_keyword`, `Kind.eq_of_lexeme_ne_nil` — which kinds accept something.
* `Kind.find?_of_perm` — the kinds in another order.
* `keywords_alone_need_order` — all of this for whole scans.
-/

namespace Kind

/-- The keywords with their spellings. -/
def keywordSpellings : List (Kind × String) :=
  [(print, "print"), (ejprint, "ejprint"), (ejkey, "ejkey")]

/-- Every keyword is tried before words. -/
def KeywordsFirst (order : List Kind) : Prop :=
  ∀ entry ∈ keywordSpellings, [entry.1, word].Sublist order

instance (order : List Kind) : Decidable (KeywordsFirst order) :=
  inferInstanceAs (Decidable (∀ _ ∈ _, _))

theorem keywordsFirst_catalog : KeywordsFirst catalog := by decide

theorem spelling_ne_nil : ∀ entry ∈ keywordSpellings, entry.2.toList ≠ [] := by decide

theorem keyword_ne_space : ∀ entry ∈ keywordSpellings, entry.1 ≠ space := by decide

theorem keyword_ne_word : ∀ entry ∈ keywordSpellings, entry.1 ≠ word := by decide

/-- What may begin with a letter is a keyword or a word. -/
theorem mem_keywordSpellings_or_eq_word : ∀ kind ∈ [print, ejprint, ejkey, word],
    (∃ entry ∈ keywordSpellings, kind = entry.1) ∨ kind = word := by decide

variable {kind other first second : Kind} {entry : Kind × String} {order : List Kind}
  {rest : List Char}

/-! ### Which kinds accept something -/

theorem matchLength?_isSome_iff (kind : Kind) (text : String) :
    (kind.matchLength? text).isSome = true ↔ kind.lexeme text.toList ≠ [] := by
  unfold matchLength?
  cases kind.lexeme text.toList <;> simp

/-- A keyword accepts its spelling. -/
theorem lexeme_keyword_ne_nil_iff (h : entry ∈ keywordSpellings) :
    entry.1.lexeme rest ≠ [] ↔ entry.2.toList <+: rest := by
  have hlexeme : entry.1.lexeme rest = literal entry.2.toList rest := by
    revert entry
    simp [keywordSpellings, lexeme]
  rw [hlexeme, literal_ne_nil_iff (spelling_ne_nil entry h)]

/-- No text begins with two keywords. -/
theorem eq_of_keywords_begin {entry' : Kind × String} (h : entry ∈ keywordSpellings)
    (h' : entry' ∈ keywordSpellings) (hbegins : entry.2.toList <+: rest)
    (hbegins' : entry'.2.toList <+: rest) : entry = entry' := by
  have hapart : ∀ a ∈ keywordSpellings, ∀ b ∈ keywordSpellings,
      a.2.toList <+: b.2.toList → a = b := by decide
  rcases List.prefix_or_prefix_of_prefix hbegins hbegins' with hshort | hlong
  · exact hapart entry h entry' h' hshort
  · exact (hapart entry' h' entry h hlong).symm

/-- What is accepted in front of a letter is a word, or a keyword that stands there. -/
theorem eq_word_or_keyword {c : Char} (hc : c.isLower = true)
    (h : kind.lexeme (c :: rest) ≠ []) :
    kind = word ∨ ∃ entry ∈ keywordSpellings, kind = entry.1 ∧ entry.2.toList <+: c :: rest := by
  have hmem := mem_beginningWith h
  rw [beginningWith_of_isLower hc] at hmem
  rcases mem_keywordSpellings_or_eq_word kind hmem with ⟨entry, hentry, rfl⟩ | hword
  · exact .inr ⟨entry, hentry, rfl, (lexeme_keyword_ne_nil_iff hentry).mp h⟩
  · exact .inl hword

/-- **In front of a keyword** exactly this keyword and words accept something. -/
theorem lexeme_ne_nil_iff_of_keyword (h : entry ∈ keywordSpellings)
    (hbegins : entry.2.toList <+: rest) (kind : Kind) :
    kind.lexeme rest ≠ [] ↔ kind = entry.1 ∨ kind = word := by
  have hlower : ∃ c tail, entry.2.toList = c :: tail ∧ c.isLower = true := by
    revert entry
    simp [keywordSpellings]
  obtain ⟨c, tail, hspelling, hc⟩ := hlower
  obtain ⟨behind, rfl⟩ : ∃ behind, rest = c :: behind := by
    obtain ⟨behind, rfl⟩ := hbegins
    exact ⟨tail ++ behind, by rw [hspelling, List.cons_append]⟩
  constructor
  · intro hkind
    rcases eq_word_or_keyword hc hkind with hword | ⟨entry', hentry', rfl, hbegins'⟩
    · exact .inr hword
    · exact .inl (congrArg Prod.fst (eq_of_keywords_begin hentry' h hbegins' hbegins))
  · rintro (rfl | rfl)
    · exact (lexeme_keyword_ne_nil_iff h).mpr hbegins
    · simp [lexeme, hc]

/-- At most one kind begins with a character that is no letter. -/
theorem eq_of_mem_beginningWith {c : Char} (hc : ¬ c.isLower = true)
    (h : kind ∈ beginningWith c) (hother : other ∈ beginningWith c) : kind = other := by
  unfold beginningWith at h hother
  rw [if_neg hc] at h hother
  split_ifs at h hother
  · simp_all
  · simp_all
  · simp_all
  · split at h <;> simp_all

/-- **In front of anything else** at most one kind accepts something. -/
theorem eq_of_lexeme_ne_nil (hfree : ∀ entry ∈ keywordSpellings, ¬ entry.2.toList <+: rest)
    (h : kind.lexeme rest ≠ []) (hother : other.lexeme rest ≠ []) : kind = other := by
  cases rest with
  | nil => exact absurd (lexeme_nil kind) h
  | cons c rest =>
    by_cases hc : c.isLower = true
    · have hword : ∀ {kind : Kind}, kind.lexeme (c :: rest) ≠ [] → kind = word := by
        intro kind hkind
        refine (eq_word_or_keyword hc hkind).resolve_right ?_
        rintro ⟨entry, hentry, _, hbegins⟩
        exact hfree entry hentry hbegins
      rw [hword h, hword hother]
    · exact eq_of_mem_beginningWith hc (mem_beginningWith h) (mem_beginningWith hother)

/-! ### What is found -/

/-- The only kind that accepts something is found. -/
theorem find?_of_forall_eq (hmem : kind ∈ order) (hne : kind.lexeme rest ≠ [])
    (honly : ∀ other ∈ order, other.lexeme rest ≠ [] → other = kind) :
    find? order rest = some (kind, kind.lexeme rest) := by
  cases hfind : find? order rest with
  | none => exact absurd (find?_eq_none_iff.mp hfind kind hmem) hne
  | some found =>
    obtain ⟨found, lexeme⟩ := found
    obtain ⟨hfound, rfl, hne'⟩ := find?_eq_some hfind
    rw [honly found hfound hne']

/-- Of two kinds that accept something the one that is tried first is found. -/
theorem find?_of_sublist (hnodup : order.Nodup) (hsublist : [first, second].Sublist order)
    (hne : first.lexeme rest ≠ [])
    (honly : ∀ kind : Kind, kind.lexeme rest ≠ [] → kind = first ∨ kind = second) :
    find? order rest = some (first, first.lexeme rest) := by
  obtain ⟨before, after, rfl, hfirst, hsecond⟩ := List.cons_sublist_iff.mp hsublist
  have hlater : second ∉ before := fun hbefore =>
    (List.nodup_append.mp hnodup).2.2 second hbefore second
      (List.singleton_sublist.mp hsecond) rfl
  have hbefore : find? before rest = some (first, first.lexeme rest) := by
    refine find?_of_forall_eq hfirst hne fun other hother haccepts => ?_
    refine (honly other haccepts).resolve_right ?_
    rintro rfl
    exact hlater hother
  rw [find?] at hbefore ⊢
  rw [List.findSome?_append, hbefore, Option.some_or]

/-- **The kinds in another order** find the same if the keywords are tried before words. -/
theorem find?_of_perm (hperm : order.Perm catalog) (hkeywords : KeywordsFirst order)
    (rest : List Char) : find? order rest = find? catalog rest := by
  have hnodup : order.Nodup := hperm.nodup_iff.mpr nodup_catalog
  have hmem : ∀ kind : Kind, kind ∈ order := fun kind => hperm.mem_iff.mpr (mem_catalog kind)
  by_cases hkeyword : ∃ entry ∈ keywordSpellings, entry.2.toList <+: rest
  · -- two kinds accept something, and in both orders the keyword comes first
    obtain ⟨entry, hentry, hbegins⟩ := hkeyword
    have haccepts := lexeme_ne_nil_iff_of_keyword hentry hbegins
    have hne : entry.1.lexeme rest ≠ [] := (haccepts entry.1).mpr (.inl rfl)
    rw [find?_of_sublist hnodup (hkeywords entry hentry) hne fun kind => (haccepts kind).mp,
      find?_of_sublist nodup_catalog (keywordsFirst_catalog entry hentry) hne
        fun kind => (haccepts kind).mp]
  · have hfree : ∀ entry ∈ keywordSpellings, ¬ entry.2.toList <+: rest :=
      fun entry hentry hbegins => hkeyword ⟨entry, hentry, hbegins⟩
    by_cases hsome : ∃ kind : Kind, kind.lexeme rest ≠ []
    · -- whichever kind comes first, only this one accepts anything
      obtain ⟨kind, hkind⟩ := hsome
      have honly : ∀ other : Kind, other.lexeme rest ≠ [] → other = kind :=
        fun other hother => eq_of_lexeme_ne_nil hfree hother hkind
      rw [find?_of_forall_eq (hmem kind) hkind fun other _ => honly other,
        find?_of_forall_eq (mem_catalog kind) hkind fun other _ => honly other]
    · have hnone : ∀ kind : Kind, kind.lexeme rest = [] := by simpa using hsome
      rw [find?_eq_none_iff.mpr fun kind _ => hnone kind,
        find?_eq_none_iff.mpr fun kind _ => hnone kind]

/-- Of two members of a list one stands before the other. -/
theorem sublist_or_sublist (hfirst : first ∈ order) (hsecond : second ∈ order)
    (hne : first ≠ second) :
    [first, second].Sublist order ∨ [second, first].Sublist order := by
  obtain ⟨before, after, rfl⟩ := List.append_of_mem hfirst
  rcases List.mem_append.mp hsecond with hbefore | hafter
  · exact .inr ((List.singleton_sublist.mpr hbefore).append
      (List.singleton_sublist.mpr List.mem_cons_self))
  · have hafter : second ∈ after := List.mem_of_ne_of_mem hne.symm hafter
    exact .inl (((List.singleton_sublist.mpr hafter).cons_cons first).trans
      (List.sublist_append_right before _))

/-- Where words are tried before a keyword, its spelling is found as a word. -/
theorem find?_of_not_keywordsFirst (hperm : order.Perm catalog) (h : entry ∈ keywordSpellings)
    (hlate : ¬ [entry.1, word].Sublist order) :
    find? order entry.2.toList = some (word, word.lexeme entry.2.toList) := by
  have haccepts := lexeme_ne_nil_iff_of_keyword h (List.prefix_refl entry.2.toList)
  have hsublist := (sublist_or_sublist (hperm.mem_iff.mpr (mem_catalog entry.1))
    (hperm.mem_iff.mpr (mem_catalog word)) (keyword_ne_word entry h)).resolve_left hlate
  exact find?_of_sublist (hperm.nodup_iff.mpr nodup_catalog) hsublist
    ((haccepts word).mpr (.inr rfl)) fun kind hkind => ((haccepts kind).mp hkind).symm

end Kind

namespace Scanner

variable {order other : List Kind} {scanner : Scanner} {kind : Kind} {lexeme : List Char}

/-! ### Scanning -/

/-- A call depends on no more of the order than what is found in it. -/
theorem nextIn_congr (h : ∀ rest, Kind.find? order rest = Kind.find? other rest)
    (scanner : Scanner) : scanner.nextIn order = scanner.nextIn other := by
  fun_induction nextIn order scanner with
  | case1 scanner hfailed => rw [nextIn_of_failed other hfailed]
  | case2 scanner _ hrest => rw [nextIn_of_rest_eq_nil other hrest]
  | case3 scanner hfailed found after hrest hfind =>
    rw [h] at hfind
    rw [nextIn_of_stuck (by simpa using hfailed) hrest hfind]
  | case4 scanner hfailed _ _ _ lexeme hfind ih =>
    rw [h] at hfind
    rw [ih, nextIn_of_blanks (by simpa using hfailed) hfind]
  | case5 scanner hfailed _ _ _ kind lexeme hfind hkind =>
    rw [h] at hfind
    rw [nextIn_of_token (by simpa using hfailed) hfind hkind]

/-- One call, and what is collected behind it. -/
theorem collectOnto_eq (order : List Kind) (found : List Token) (scanner : Scanner) :
    collectOnto order found scanner = match scanner.nextIn order with
      | (none, _) => (found.reverse, none)
      | (some (.error fault), _) => (found.reverse, some fault)
      | (some (.ok token), scanner') => collectOnto order (token :: found) scanner' := by
  rw [collectOnto]
  split
  next hnext => rw [hnext]
  next hnext => rw [hnext]
  next hnext => rw [hnext]

theorem collectOnto_congr (h : ∀ rest, Kind.find? order rest = Kind.find? other rest)
    (found : List Token) (scanner : Scanner) :
    collectOnto order found scanner = collectOnto other found scanner := by
  fun_induction collectOnto order found scanner with
  | case1 found scanner scanner' hnext | case2 found scanner fault failed hnext =>
    rw [collectOnto_eq, ← nextIn_congr h, hnext]
  | case3 found scanner token scanner' hnext ih =>
    rw [ih, collectOnto_eq other found, ← nextIn_congr h, hnext]

/-- What is found at once is the first token. -/
theorem head?_collectOnto (hfailed : scanner.failed = false)
    (hfind : Kind.find? order scanner.rest = some (kind, lexeme)) (hkind : kind ≠ .space) :
    (collectOnto order [] scanner).1.head? =
      some ⟨kind, String.ofList lexeme, scanner.location⟩ := by
  obtain ⟨tokens, last, hgives, htokens, hend⟩ := gives_of_collectOnto order [] scanner hfailed
  obtain ⟨others, rfl, _⟩ := (completes_token_iff hfind hkind).mp ⟨last, hgives, hend⟩
  rw [htokens]
  rfl

/-- Where words are tried before a keyword, its spelling alone is scanned differently. -/
theorem keywordsFirst_of_collectOnto_eq (hperm : order.Perm Kind.catalog)
    (h : ∀ source, collectOnto order [] (ofString source) = (ofString source).collect) :
    Kind.KeywordsFirst order := by
  intro entry hentry
  by_contra hlate
  -- the two scans of the spelling differ in the kind of their first token
  have haccepts := Kind.lexeme_ne_nil_iff_of_keyword hentry (List.prefix_refl entry.2.toList)
  have hkeyword : Kind.find? Kind.catalog entry.2.toList =
      some (entry.1, entry.1.lexeme entry.2.toList) :=
    Kind.find?_of_sublist Kind.nodup_catalog (Kind.keywordsFirst_catalog entry hentry)
      ((haccepts entry.1).mpr (.inl rfl)) fun kind => (haccepts kind).mp
  have hword := Kind.find?_of_not_keywordsFirst hperm hentry hlate
  have hspace : entry.1 ≠ .space := Kind.keyword_ne_space entry hentry
  have hfirst : (ofString entry.2).collect.1.head? = _ := head?_collectOnto rfl hkeyword hspace
  have hlater : (collectOnto order [] (ofString entry.2)).1.head? = _ :=
    head?_collectOnto rfl hword (by decide)
  rw [h] at hlater
  have hsame := hfirst.symm.trans hlater
  simp only [Option.some.injEq, Token.mk.injEq] at hsame
  exact Kind.keyword_ne_word entry hentry hsame.1

end Scanner

/-- **Only the keywords need an order.** In front of a keyword exactly this keyword and words accept
something, and in front of anything else at most one kind does.  So the kinds in another order give
the same at every call and for every text if the keywords are tried before words, and only then. -/
theorem keywords_alone_need_order :
    (∀ text : String,
      (∀ entry ∈ Kind.keywordSpellings, entry.2.toList <+: text.toList → ∀ kind : Kind,
        (kind.matchLength? text).isSome = true ↔ kind = entry.1 ∨ kind = .word) ∧
      ((∀ entry ∈ Kind.keywordSpellings, ¬ entry.2.toList <+: text.toList) →
        ∀ kind other : Kind, (kind.matchLength? text).isSome = true →
          (other.matchLength? text).isSome = true → kind = other)) ∧
    ∀ order : List Kind, order.Perm Kind.catalog →
      (Kind.KeywordsFirst order → ∀ scanner : Scanner, scanner.nextIn order = scanner.next) ∧
      (Kind.KeywordsFirst order ↔ ∀ source,
        Scanner.collectOnto order [] (.ofString source) = (Scanner.ofString source).collect) := by
  simp only [Kind.matchLength?_isSome_iff]
  refine ⟨fun text => ⟨?_, ?_⟩, fun order hperm => ⟨?_, ?_, ?_⟩⟩
  · intro entry hentry hbegins
    exact Kind.lexeme_ne_nil_iff_of_keyword hentry hbegins
  · intro hfree kind other
    exact Kind.eq_of_lexeme_ne_nil hfree
  · intro hkeywords scanner
    exact Scanner.nextIn_congr (Kind.find?_of_perm hperm hkeywords) scanner
  · intro hkeywords source
    exact Scanner.collectOnto_congr (Kind.find?_of_perm hperm hkeywords) [] _
  · exact Scanner.keywordsFirst_of_collectOnto_eq hperm

/-- The kinds from the last to the first, but for words, which stand behind the keywords. -/
def lastToFirst : List Kind :=
  [.hash, .number, .emoji, .text, .semicolon, .closeParen, .openParen, .minus, .plus, .equals,
   .ejkey, .ejprint, .print, .word, .space]

theorem keywords_alone_need_order_lastToFirst :
    (∀ kind : Kind, (kind.matchLength? "ejprinter").isSome = true ↔
      kind = .ejprint ∨ kind = .word) ∧
    lastToFirst.Perm Kind.catalog ∧ Kind.KeywordsFirst lastToFirst ∧
    (∀ source, Scanner.collectOnto lastToFirst [] (.ofString source) =
      (Scanner.ofString source).collect) ∧
    Kind.catalog.reverse.Perm Kind.catalog ∧ ¬ Kind.KeywordsFirst Kind.catalog.reverse ∧
    ¬ ∀ source, Scanner.collectOnto Kind.catalog.reverse [] (.ofString source) =
      (Scanner.ofString source).collect := by
  obtain ⟨hkinds, horders⟩ := keywords_alone_need_order
  have hperm : lastToFirst.Perm Kind.catalog := by decide
  have hfirst : Kind.KeywordsFirst lastToFirst := by decide
  have hlate : ¬ Kind.KeywordsFirst Kind.catalog.reverse := by decide
  have hbackwards : Kind.catalog.reverse.Perm Kind.catalog := List.reverse_perm _
  refine ⟨?_, hperm, hfirst, (horders _ hperm).2.mp hfirst, hbackwards, hlate, ?_⟩
  · exact (hkinds "ejprinter").1 (.ejprint, "ejprint") (by decide) (by decide)
  · exact fun h => hlate ((horders _ hbackwards).2.mpr h)

end EmojiScript
