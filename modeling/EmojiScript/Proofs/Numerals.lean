import EmojiScript.Proofs.Concatenation
import EmojiScript.Proofs.Scanner.Spelling

namespace EmojiScript

/-!
# Integers written and read again

A numeral stands for one integer and is read as this integer where it fits 64 bits.  What is
written for an integer is a numeral that stands for it, so an integer that is written can be read
again.  A numeral that is read can be written again, and has then lost its leading zeros.

* `Numeral.Denotes` — the integer that a numeral stands for.
* `Numeral.read?_eq_some_iff` — what is read of a text.
* `Numeral.repr_value` — what is written for a numeral.
* `exists_compile_print`, `runSource_print` — the source that prints a numeral.
* `numerals_round_trip` — integers, numerals and sources.
-/

namespace Numeral

/-! ### What is read -/

/-- The integer that a numeral stands for: the number of its digits, however many of them are
leading zeros, behind an optional sign. -/
inductive Denotes : String → Int → Prop where
  | unsigned {digits : String} : IsDigits digits → Denotes digits (value digits)
  | plus {digits : String} : IsDigits digits → Denotes ("+" ++ digits) (value digits)
  | minus {digits : String} : IsDigits digits → Denotes ("-" ++ digits) (-value digits)

theorem isDigits_of_digits? {chars : List Char} {n : Nat} (h : digits? chars = some n) :
    IsDigits (String.ofList chars) ∧ value (String.ofList chars) = n := by
  unfold digits? at h
  split at h
  next hdigits =>
    refine ⟨⟨by simpa using hdigits.1, by simpa using hdigits.2⟩, ?_⟩
    rw [value, String.toList_ofList]
    exact Option.some.inj h
  next => cases h

/-- Digits behind a sign, which makes an integer of their number. -/
theorem exists_isDigits_of_map {chars : List Char} {n : Int} {sign : Int → Int}
    (h : ((digits? chars).bind fun magnitude => some (magnitude : Int)).map sign = some n) :
    IsDigits (String.ofList chars) ∧ n = sign (value (String.ofList chars)) := by
  obtain ⟨_, hbind, rfl⟩ := Option.map_eq_some_iff.mp h
  obtain ⟨magnitude, hmagnitude, ⟨⟩⟩ := Option.bind_eq_some_iff.mp hbind
  obtain ⟨hdigits, rfl⟩ := isDigits_of_digits? hmagnitude
  exact ⟨hdigits, rfl⟩

theorem signed?_eq_some_iff {text : String} {n : Int} :
    signed? text.toList = some n ↔ Denotes text n := by
  constructor
  · intro h
    unfold signed? at h
    split at h
    next chars heq =>
      have htext : text = "-" ++ String.ofList chars := by
        rw [← String.toList_inj, heq]
        simp
      obtain ⟨hdigits, rfl⟩ := exists_isDigits_of_map h
      exact htext ▸ .minus hdigits
    next chars heq =>
      have htext : text = "+" ++ String.ofList chars := by
        rw [← String.toList_inj, heq]
        simp
      obtain ⟨hdigits, rfl⟩ := exists_isDigits_of_map h
      exact htext ▸ .plus hdigits
    next =>
      -- the text begins with no sign, so all of it is digits
      obtain ⟨hdigits, rfl⟩ := exists_isDigits_of_map h
      rw [String.ofList_toList] at hdigits ⊢
      exact .unsigned hdigits
  · intro h
    cases h with
    | unsigned hdigits => exact signed?_of_isDigits hdigits
    | @plus digits hdigits =>
      have hchars : ("+" ++ digits).toList = '+' :: digits.toList := by simp
      rw [hchars, signed?, digits?_of_isDigits hdigits]
      rfl
    | @minus digits hdigits =>
      have hchars : ("-" ++ digits).toList = '-' :: digits.toList := by simp
      rw [hchars, signed?, digits?_of_isDigits hdigits]
      rfl

/-- **A text is read as the integer that it stands for.** -/
theorem read?_eq_some_iff {text : String} {word : Int64} :
    read? text = some word ↔ Denotes text word.toInt := by
  rw [read?, Option.bind_eq_some_iff]
  constructor
  · rintro ⟨n, hsigned, hword⟩
    rw [ofInt?_eq_some_iff.mp hword]
    exact signed?_eq_some_iff.mp hsigned
  · intro h
    exact ⟨_, signed?_eq_some_iff.mpr h, ofInt?_toInt word⟩

/-- A text is read if it stands for an integer of 64 bits. -/
theorem exists_read?_iff {text : String} :
    (∃ word, read? text = some word) ↔ ∃ n, Denotes text n ∧ Fits n := by
  constructor
  · rintro ⟨word, hread⟩
    exact ⟨_, read?_eq_some_iff.mp hread, fits_toInt word⟩
  · rintro ⟨n, hdenotes, hfits⟩
    obtain ⟨word, _, rfl⟩ := exists_ofInt?_of_fits hfits
    exact ⟨word, read?_eq_some_iff.mpr hdenotes⟩

/-! ### What is written -/

/-- What is written for an integer stands for it. -/
theorem denotes_repr (n : Int) : Denotes n.repr n := by
  cases n with
  | ofNat magnitude =>
    have hdenotes := Denotes.unsigned (isDigits_repr magnitude)
    rwa [value_repr] at hdenotes
  | negSucc predecessor =>
    have hdenotes := Denotes.minus (isDigits_repr (predecessor + 1))
    rwa [value_repr] at hdenotes

/-- A run of digits without the zeros that it begins with, of which one stays where nothing else
would. -/
def trimmed (digits : String) : String :=
  match digits.toList.dropWhile (· == '0') with
  | [] => "0"
  | significant => String.ofList significant

theorem digit_lt_ten {c : Char} (h : c.isDigit = true) : c.toNat - '0'.toNat < 10 := by
  have hrange : 48 ≤ c.toNat ∧ c.toNat ≤ 57 := Char.isDigit_iff_toNat.mp h
  show c.toNat - 48 < 10
  omega

theorem digit_pos {c : Char} (h : c.isDigit = true) (hne : c ≠ '0') : 0 < c.toNat - '0'.toNat := by
  have hrange : 48 ≤ c.toNat ∧ c.toNat ≤ 57 := Char.isDigit_iff_toNat.mp h
  have hne' : c.toNat ≠ 48 := fun heq => hne (Char.toNat_inj.mp heq)
  show 0 < c.toNat - 48
  omega

/-- A digit is what is written for its number. -/
theorem toDigits_of_isDigit {c : Char} (h : c.isDigit = true) :
    Nat.toDigits 10 (c.toNat - '0'.toNat) = [c] := by
  have hrange : 48 ≤ c.toNat ∧ c.toNat ≤ 57 := Char.isDigit_iff_toNat.mp h
  have hdigit : (Nat.digitChar (c.toNat - '0'.toNat)).toNat = c.toNat := by
    rw [Nat.toNat_digitChar_of_lt_ten (digit_lt_ten h)]
    show 48 + (c.toNat - 48) = c.toNat
    omega
  rw [Nat.toDigits_of_lt_base (digit_lt_ten h), Char.toNat_inj.mp hdigit]

/-- Digits that follow those of a positive number are written behind them. -/
theorem toDigits_ofDigitChars {chars : List Char} (hall : chars.all Char.isDigit = true) {n : Nat}
    (hpos : 0 < n) :
    Nat.toDigits 10 (Nat.ofDigitChars 10 chars n) = Nat.toDigits 10 n ++ chars := by
  -- a number that is positive grows by one digit with each character, so no digit is lost
  induction chars generalizing n with
  | nil => rw [Nat.ofDigitChars_nil, List.append_nil]
  | cons c rest ih =>
    rw [List.all_cons, Bool.and_eq_true] at hall
    obtain ⟨hc, hrest⟩ := hall
    rw [Nat.ofDigitChars_cons, ih hrest (by omega),
      ← Nat.toDigits_append_toDigits (by decide) hpos (digit_lt_ten hc), toDigits_of_isDigit hc,
      List.append_assoc, List.singleton_append]

theorem ofDigitChars_dropWhile (chars : List Char) :
    Nat.ofDigitChars 10 (chars.dropWhile (· == '0')) 0 = Nat.ofDigitChars 10 chars 0 := by
  induction chars with
  | nil => rfl
  | cons c rest ih =>
    by_cases hzero : c = '0'
    · rw [hzero, List.dropWhile_cons_of_pos (by rfl), ih, Nat.ofDigitChars_cons]
      rfl
    · rw [List.dropWhile_cons_of_neg (by simpa using hzero)]

/-- **A numeral that is written again has lost its leading zeros.** -/
theorem repr_value {digits : String} (h : IsDigits digits) :
    (value digits).repr = trimmed digits := by
  rw [← String.toList_inj, Nat.toList_repr, value, ← ofDigitChars_dropWhile, trimmed]
  have hsuffix : digits.toList.dropWhile (· == '0') <:+ digits.toList := List.dropWhile_suffix _
  have hhead := List.head?_dropWhile_not (· == '0') digits.toList
  cases hsignificant : digits.toList.dropWhile (· == '0') with
  | nil =>
    -- nothing but zeros, of which one is written
    rfl
  | cons c rest =>
    -- the first of the other digits is positive, and the rest follow it
    rw [hsignificant] at hsuffix hhead
    have hall : ∀ digit ∈ c :: rest, digit.isDigit = true :=
      fun digit hdigit => List.all_eq_true.mp h.2 digit (hsuffix.subset hdigit)
    obtain ⟨hc, hrest⟩ := List.forall_mem_cons.mp hall
    have hpos := digit_pos hc (by simpa using hhead)
    show Nat.toDigits 10 (Nat.ofDigitChars 10 (c :: rest) 0) = (String.ofList (c :: rest)).toList
    rw [Nat.ofDigitChars_cons, Nat.mul_zero, Nat.zero_add,
      toDigits_ofDigitChars (List.all_eq_true.mpr hrest) hpos, toDigits_of_isDigit hc,
      String.toList_ofList, List.singleton_append]

example : trimmed "0070" = "70" ∧ trimmed "000" = "0" := by decide

end Numeral

/-! ### Numerals in sources -/

/-- **A numeral is printed by a source of its own.** -/
theorem exists_compile_print {digits : String} (h : Numeral.IsDigits digits) :
    ∃ keyword numeral, compile ("print " ++ digits ++ "#;") =
      .ok (.program [.print keyword (.leaf .number numeral)]) ∧ numeral.text = digits := by
  have hsemicolon : Scans [';'] [.placeless .semicolon ";"] := Scans.nil.mark rfl (by decide)
  have hhash : Scans ['#', ';'] [.placeless .hash "#", .placeless .semicolon ";"] :=
    hsemicolon.mark rfl (by decide)
  have hscans := ((hhash.numeral h (by decide)).blank (c := ' ') (by decide)).print
  have hrest : (Scanner.ofString ("print " ++ digits ++ "#;")).rest =
      "print".toList ++ ' ' :: (digits.toList ++ ['#', ';']) := by
    show ("print " ++ digits ++ "#;").toList = _
    simp
  obtain ⟨found, hcompletes, halike⟩ := hscans _ hrest
  -- the tokens are those that were written, each at some place
  obtain ⟨keyword, _, hkeyword, hoperand, rfl⟩ := List.forall₂_cons_right_iff.mp halike
  obtain ⟨numeral, _, hnumeral, hend, rfl⟩ := List.forall₂_cons_right_iff.mp hoperand
  obtain ⟨hash, _, hhash, hlast, rfl⟩ := List.forall₂_cons_right_iff.mp hend
  obtain ⟨semicolon, _, hsemicolon, hnone, rfl⟩ := List.forall₂_cons_right_iff.mp hlast
  obtain rfl := List.forall₂_nil_right_iff.mp hnone
  refine ⟨keyword, numeral, ?_, hnumeral.2⟩
  rw [compile_of_tokenize (tokenize_of_completes hcompletes), hkeyword.eq_of_placeless,
    hnumeral.eq_of_placeless, hhash.eq_of_placeless, hsemicolon.eq_of_placeless]
  rfl

namespace Node

variable {σ : Type} [Sink σ]

/-- The run of a program that prints one value. -/
theorem run_print (operator : Token) (operand : Node) :
    (program [print operator operand]).run (σ := σ) = (do
      let value ← operand.value
      Eval.writeLine value.toText
      Eval.flush) := by
  simp only [run, evaluate_program, evaluateAll_cons, evaluate_print, bind_assoc, pure_bind]
  rfl

/-- A numeral that is read has its integer as its value. -/
theorem evaluate_numeral {token : Token} {word : Int64} (h : Numeral.read? token.text = some word) :
    (leaf .number token).evaluate (σ := σ) = pure (some (.int word)) := by
  rw [evaluate_leaf, Leaf.evaluate, h, map_pure]

/-- A numeral that is not read is a fault. -/
theorem evaluate_numeral_of_none {token : Token} (h : Numeral.read? token.text = none) :
    (leaf .number token).evaluate (σ := σ) = throw (.invalidNumber token.text) := by
  rw [evaluate_leaf, Leaf.evaluate, h]
  rfl

end Node

variable {σ : Type} [Sink σ]

theorem runSource_print {digits : String} {word : Int64} (h : Numeral.IsDigits digits)
    (hread : Numeral.read? digits = some word) (machine : Machine σ) :
    machine.runSource ("print " ++ digits ++ "#;") =
      (do Eval.writeLine (Value.int word).toText; Eval.flush).runOn machine := by
  obtain ⟨keyword, numeral, hcompile, rfl⟩ := exists_compile_print h
  rw [Machine.runSource_of_ok hcompile, Node.run_print, Node.value, Node.evaluate_numeral hread]
  rfl

/-- A numeral that is not read fails before anything is written. -/
theorem runSource_print_of_none {digits : String} (h : Numeral.IsDigits digits)
    (hread : Numeral.read? digits = none) (machine : Machine σ) :
    machine.runSource ("print " ++ digits ++ "#;") =
      (.error (.invalidNumber digits), machine) := by
  obtain ⟨keyword, numeral, hcompile, rfl⟩ := exists_compile_print h
  rw [Machine.runSource_of_ok hcompile, Node.run_print, Node.value,
    Node.evaluate_numeral_of_none hread]
  rfl

/-! ### The round trip -/

/-- What is written for the integer of a numeral. -/
theorem Value.toText_of_toInt {digits : String} {word : Int64} (h : Numeral.IsDigits digits)
    (hword : word.toInt = Numeral.value digits) :
    (Value.int word).toText = Numeral.trimmed digits := by
  rw [toText, hword]
  exact Numeral.repr_value h

/-- **The round trip of integers.** On every machine, a numeral with the text of an integer
evaluates to this integer.  A numeral with any text evaluates exactly if the text is an optional
sign and a run of digits whose integer fits 64 bits, and then to this integer.  A source that prints
a run of digits writes it without its leading zeros where its number is below `2 ^ 63`, and
otherwise fails with a fault that quotes it and does nothing. -/
theorem numerals_round_trip (machine : Machine σ) :
    (∀ (token : Token) (n : Int64), token.text = (Value.int n).toText →
      (Node.leaf .number token).evaluate.runOn machine = (.ok (some (.int n)), machine)) ∧
    (∀ token : Token,
      (∃ value? after, (Node.leaf .number token).evaluate.runOn machine = (.ok value?, after)) ↔
        ∃ n, Numeral.Denotes token.text n ∧ Numeral.Fits n) ∧
    (∀ (token : Token) (n : Int), Numeral.Denotes token.text n → Numeral.Fits n →
      ∃ word : Int64, word.toInt = n ∧
        (Node.leaf .number token).evaluate.runOn machine = (.ok (some (.int word)), machine)) ∧
    ∀ digits, Numeral.IsDigits digits →
      (Numeral.value digits < 2 ^ 63 →
        machine.runSource ("print " ++ digits ++ "#;") =
          (do Eval.writeLine (Numeral.trimmed digits); Eval.flush).runOn machine) ∧
      (2 ^ 63 ≤ Numeral.value digits →
        machine.runSource ("print " ++ digits ++ "#;") =
          (.error (.invalidNumber digits), machine)) := by
  refine ⟨?_, ?_, ?_, ?_⟩
  · intro token n htext
    have hdenotes : Numeral.Denotes token.text n.toInt := htext ▸ Numeral.denotes_repr n.toInt
    rw [Node.evaluate_numeral (Numeral.read?_eq_some_iff.mpr hdenotes), Eval.runOn_pure]
  · intro token
    rw [← Numeral.exists_read?_iff]
    constructor
    · rintro ⟨value?, after, hrun⟩
      cases hread : Numeral.read? token.text with
      | some word => exact ⟨word, rfl⟩
      | none =>
        rw [Node.evaluate_numeral_of_none hread] at hrun
        cases hrun
    · rintro ⟨word, hread⟩
      exact ⟨_, _, by rw [Node.evaluate_numeral hread, Eval.runOn_pure]⟩
  · intro token n hdenotes hfits
    obtain ⟨word, _, rfl⟩ := Numeral.exists_ofInt?_of_fits hfits
    refine ⟨word, rfl, ?_⟩
    rw [Node.evaluate_numeral (Numeral.read?_eq_some_iff.mpr hdenotes), Eval.runOn_pure]
  · intro digits hdigits
    have hread := Numeral.read?_of_isDigits hdigits
    refine ⟨?_, ?_⟩
    · intro hlt
      have hfits : Numeral.Fits (Numeral.value digits) := ⟨by omega, by omega⟩
      obtain ⟨word, hofInt, hword⟩ := Numeral.exists_ofInt?_of_fits hfits
      rw [runSource_print hdigits (hread.trans hofInt), Value.toText_of_toInt hdigits hword]
    · intro hle
      have hfits : ¬ Numeral.Fits (Numeral.value digits) := by
        rintro ⟨_, hlt⟩
        omega
      exact runSource_print_of_none hdigits (hread.trans (Numeral.ofInt?_of_not_fits hfits)) machine

/-- A machine on which nothing has happened yet. -/
def unused : Machine Buffer where
  sink := {}

/-- The least integer is written and read again, leading zeros are read and not written, and the
first number that is too large is refused. -/
theorem numerals_round_trip_unused :
    (Value.int Int64.minValue).toText = "-9223372036854775808" ∧
      (Node.leaf .number ⟨.number, "-9223372036854775808", ⟨0, 1⟩⟩).evaluate.runOn unused =
        (.ok (some (.int Int64.minValue)), unused) ∧
      Numeral.Denotes "+007" 7 ∧ Numeral.Fits 7 ∧
      (∃ word : Int64, word.toInt = 7 ∧
        (Node.leaf .number ⟨.number, "+007", ⟨0, 1⟩⟩).evaluate.runOn unused =
          (.ok (some (.int word)), unused)) ∧
      Numeral.IsDigits "007" ∧ Numeral.value "007" < 2 ^ 63 ∧
      unused.runSource "print 007#;" =
        (.ok (), { sink := { bytes := "7\n".toUTF8, flushes := 1 } }) ∧
      Numeral.IsDigits "9223372036854775808" ∧ 2 ^ 63 ≤ Numeral.value "9223372036854775808" ∧
      unused.runSource "print 9223372036854775808#;" =
        (.error (.invalidNumber "9223372036854775808"), unused) := by
  obtain ⟨hwritten, _, hread, hprinted⟩ := numerals_round_trip unused
  have hleast : (Value.int Int64.minValue).toText = "-9223372036854775808" := by decide
  have hseven : Numeral.IsDigits "007" := ⟨by decide, by decide⟩
  have hdenotes : Numeral.Denotes "+007" 7 := .plus hseven
  have hlarge : Numeral.IsDigits "9223372036854775808" := ⟨by decide, by decide⟩
  refine ⟨hleast, hwritten _ _ hleast.symm, hdenotes, by decide, hread _ 7 hdenotes (by decide),
    hseven, by decide, ?_, hlarge, by decide, (hprinted _ hlarge).2 (by decide)⟩
  rw [show "print 007#;" = "print " ++ "007" ++ "#;" from rfl, (hprinted _ hseven).1 (by decide)]
  rfl

end EmojiScript
