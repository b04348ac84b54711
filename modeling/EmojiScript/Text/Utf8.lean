namespace EmojiScript.Utf8

/-!
# Decoding UTF-8

`decode` turns bytes into a text or says where they stop being UTF-8.  The first byte of a
character fixes how many bytes follow and, for the first of these, which range it may lie in;
a fault is counted from the first byte of the character it breaks.

- `Fault`: the first place at which bytes are not UTF-8.
- `decode_eq_ok_iff`: decoding undoes encoding, and accepts nothing else.
-/

/-- The first place at which bytes are not UTF-8. -/
structure Fault where
  /-- The bytes that make up the whole characters before the fault. -/
  validUpTo : Nat
  /-- The bytes from there on that begin a character but do not complete it, at least one; nothing
  where the input ends before the character does. -/
  length? : Option Nat
deriving DecidableEq, Repr, Inhabited

/-- What is said of a fault. -/
def Fault.message (fault : Fault) : String :=
  let index := toString fault.validUpTo
  match fault.length? with
  | some n => s!"invalid utf-8 sequence of {n} bytes from index {index}"
  | none => s!"incomplete utf-8 byte sequence from index {index}"

/-- A range of bytes, both ends included. -/
abbrev Range := UInt8 × UInt8

/-- The bytes that continue a character where its first byte sets no narrower range. -/
def tail : Range := (0x80, 0xBF)

/-- The ranges of the bytes that follow the first byte of a character, or nothing where no
character begins with it.  The narrower ranges leave out overlong forms, surrogates and code
points above U+10FFFF. -/
def following? (first : UInt8) : Option (List Range) :=
  if first ≤ 0x7F then some []
  else if first < 0xC2 then none
  else if first ≤ 0xDF then some [tail]
  else if first = 0xE0 then some [(0xA0, 0xBF), tail]
  else if first = 0xED then some [(0x80, 0x9F), tail]
  else if first ≤ 0xEF then some [tail, tail]
  else if first = 0xF0 then some [(0x90, 0xBF), tail, tail]
  else if first ≤ 0xF3 then some [tail, tail, tail]
  else if first = 0xF4 then some [(0x80, 0x8F), tail, tail]
  else none

/-- The first fault of `bytes`, which follow `whole` bytes of whole characters and `read` bytes of
a character that is complete once one byte of each range of `owed` is read.  Bytes without a
fault answer with their end. -/
def faultAfter (whole read : Nat) (owed : List Range) (bytes : List UInt8) : Fault :=
  match bytes, owed with
  | [], _ => ⟨whole, none⟩
  | b :: bytes, [] =>
    match following? b with
    | none => ⟨whole, some 1⟩
    | some [] => faultAfter (whole + 1) 0 [] bytes
    | some (range :: owed) => faultAfter whole 1 (range :: owed) bytes
  | b :: bytes, (low, high) :: owed =>
    if low ≤ b ∧ b ≤ high then
      match owed with
      | [] => faultAfter (whole + read + 1) 0 [] bytes
      | range :: owed => faultAfter whole (read + 1) (range :: owed) bytes
    else ⟨whole, some read⟩

/-- The text whose UTF-8 form is `bytes`, or the first place at which they have none. -/
def decode (bytes : ByteArray) : Except Fault String :=
  match String.fromUTF8? bytes with
  | some text => .ok text
  | none => .error (faultAfter 0 0 [] bytes.data.toList)

theorem decode_toUTF8 (text : String) : decode text.toUTF8 = .ok text := by
  have known : String.fromUTF8? text.toUTF8 = some text := by
    simp only [String.fromUTF8?, String.toUTF8_eq_toByteArray, dif_pos text.isValidUTF8]
    rfl
  simp only [decode, known]

/-- Exactly the UTF-8 form of a text is decoded to it. -/
theorem decode_eq_ok_iff {bytes : ByteArray} {text : String} :
    decode bytes = .ok text ↔ bytes = text.toUTF8 := by
  constructor
  · intro h
    unfold decode String.fromUTF8? at h
    by_cases valid : bytes.IsValidUTF8
    · rw [dif_pos valid] at h
      cases h
      rfl
    · simp [valid] at h
  · rintro rfl
    exact decode_toUTF8 text

end EmojiScript.Utf8
