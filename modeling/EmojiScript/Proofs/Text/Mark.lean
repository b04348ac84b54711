import EmojiScript.Text.Location

namespace EmojiScript

/-!
# Places and bytes

A place counts lines by newline characters.  In UTF-8 an ASCII byte such as the newline stands for
nothing else, so it is the same to count newline bytes, and a place is what its two numbers are in
bytes: how many stand before it, and how many of these are newlines.

* `count_flatMap_utf8EncodeChar` — ASCII bytes are ASCII characters.
* `newlines_eq_count` — newline bytes are newline characters.
* `Location.Marks` — what it means that a place is the end of a text.
* `Location.marks_iff` — exactly one place is the end of a text.
-/

/-! ### Bytes of characters -/

/-- The UTF-8 form of a text is that of its characters, one behind the other. -/
theorem toList_toUTF8 (text : String) :
    text.toUTF8.data.toList = text.toList.flatMap String.utf8EncodeChar := by
  conv => lhs; rw [← text.ofList_toList]
  rw [String.toUTF8_eq_toByteArray, String.toByteArray_ofList, List.utf8Encode,
    List.toList_data_toByteArray]

/-- The form of a character holds an ASCII byte only if the character is that of the byte. -/
theorem count_utf8EncodeChar {ascii : Char} (h : ascii.toNat < 0x80) (c : Char) :
    (String.utf8EncodeChar c).count (UInt8.ofNat ascii.toNat) = [c].count ascii := by
  have hcode : c = ascii ↔ c.val.toNat = ascii.toNat := by
    rw [← Char.val_inj, ← UInt32.toNat_inj]
    rfl
  have hbyte (n : Nat) : UInt8.ofNat n = UInt8.ofNat ascii.toNat ↔ n % 256 = ascii.toNat := by
    rw [← UInt8.toNat_inj, UInt8.toNat_ofNat', UInt8.toNat_ofNat']
    omega
  -- the bytes of a longer form are all above the ASCII range
  unfold String.utf8EncodeChar
  simp only [List.count_cons, List.count_nil, beq_iff_eq]
  split
  next hascii =>
    simp only [List.count_cons, List.count_nil, beq_iff_eq, hbyte, hcode]
    have hmod : c.val.toNat % 256 = c.val.toNat := Nat.mod_eq_of_lt (by omega)
    rw [hmod]
  next hwide =>
    have hne : ¬ c = ascii := by
      rw [hcode]
      omega
    rw [if_neg hne]
    split
    · simp only [List.count_cons, List.count_nil, beq_iff_eq, hbyte]
      rw [if_neg (by omega), if_neg (by omega)]
    · split
      · simp only [List.count_cons, List.count_nil, beq_iff_eq, hbyte]
        rw [if_neg (by omega), if_neg (by omega), if_neg (by omega)]
      · simp only [List.count_cons, List.count_nil, beq_iff_eq, hbyte]
        rw [if_neg (by omega), if_neg (by omega), if_neg (by omega), if_neg (by omega)]

/-- ASCII bytes are ASCII characters. -/
theorem count_flatMap_utf8EncodeChar {ascii : Char} (h : ascii.toNat < 0x80) (chars : List Char) :
    (chars.flatMap String.utf8EncodeChar).count (UInt8.ofNat ascii.toNat) = chars.count ascii := by
  induction chars with
  | nil => rfl
  | cons c rest ih =>
    rw [List.flatMap_cons, List.count_append, ih, count_utf8EncodeChar h, ← List.count_append,
      List.singleton_append]

/-! ### Lines -/

/-- The newline bytes in the UTF-8 form of a text. -/
def newlines (text : String) : Nat := text.toUTF8.data.toList.count 0x0A

/-- Newline bytes are newline characters. -/
theorem newlines_eq_count (text : String) : newlines text = text.toList.count '\n' := by
  have hascii : '\n'.toNat < 0x80 := by decide
  rw [newlines, toList_toUTF8]
  exact count_flatMap_utf8EncodeChar hascii text.toList

theorem newlines_append (text more : String) :
    newlines (text ++ more) = newlines text + newlines more := by
  simp [newlines_eq_count]

/-- A place is the end of a text that begins with byte 0 on line 1. -/
structure Location.Marks (location : Location) (before : String) : Prop where
  position : location.position = before.utf8ByteSize
  line : location.line = 1 + newlines before

/-- Exactly one place is the end of a text. -/
theorem Location.marks_iff {location : Location} {before : String} :
    location.Marks before ↔ location = Location.start.after before := by
  constructor
  · rintro ⟨hposition, hline⟩
    rw [newlines_eq_count] at hline
    cases location
    simp_all [Location.after, Location.start]
  · rintro rfl
    exact ⟨by simp [Location.start], by simp [Location.start, newlines_eq_count]⟩

end EmojiScript
