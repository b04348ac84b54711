namespace EmojiScript.Numeral

/-!
# Integers in 64 bits

A numeral is an optional sign and at least one decimal digit; it is read where its value fits
64 bits.  Sums and differences are taken in the integers and refused where they do not fit, so
nothing ever wraps.

- `ofInt?`: an integer in 64 bits, if it fits; `ofInt?_toInt` says that every word fits.
- `read?`: the value of a numeral.
-/

/-- The integer `n` in 64 bits, if it fits. -/
def ofInt? (n : Int) : Option Int64 :=
  if Int64.minValue.toInt ≤ n ∧ n ≤ Int64.maxValue.toInt then some (Int64.ofInt n) else none

theorem toInt_le_maxValue (n : Int64) : n.toInt ≤ Int64.maxValue.toInt := by
  have hlt := n.toInt_lt
  rw [Int64.toInt_maxValue]
  omega

theorem ofInt?_toInt (n : Int64) : ofInt? n.toInt = some n := by
  rw [ofInt?, if_pos ⟨n.minValue_le_toInt, toInt_le_maxValue n⟩, Int64.ofInt_toInt]

theorem ofInt?_eq_some_iff {n : Int} {word : Int64} : ofInt? n = some word ↔ word.toInt = n := by
  constructor
  · intro h
    unfold ofInt? at h
    split at h
    next range =>
      obtain rfl := Option.some.inj h
      rw [Int64.toInt_minValue, Int64.toInt_maxValue] at range
      exact Int64.toInt_ofInt_of_le range.1 (by omega)
    next => cases h
  · rintro rfl
    exact ofInt?_toInt word

/-- The sum, if it fits 64 bits. -/
def add? (a b : Int64) : Option Int64 := ofInt? (a.toInt + b.toInt)

/-- The difference, if it fits 64 bits. -/
def sub? (a b : Int64) : Option Int64 := ofInt? (a.toInt - b.toInt)

/-- The value of a run of decimal digits, if there is at least one and nothing else. -/
def digits? (chars : List Char) : Option Nat :=
  if chars ≠ [] ∧ chars.all Char.isDigit then some (Nat.ofDigitChars 10 chars 0) else none

/-- The value of digits behind an optional sign. -/
def signed? : List Char → Option Int
  | '-' :: chars => (digits? chars).map fun n => -(n : Int)
  | '+' :: chars => (digits? chars).map fun n => (n : Int)
  | chars => (digits? chars).map fun n => (n : Int)

/-- The value of a numeral, if `text` is one and its value fits 64 bits. -/
def read? (text : String) : Option Int64 :=
  (signed? text.toList).bind ofInt?

end EmojiScript.Numeral
