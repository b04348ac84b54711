import EmojiScript.Text.Location

namespace EmojiScript

/-!
# Pieces of a text by their bytes

A text may be cut where a character begins and at its end, and nowhere else: the bytes of one
character belong together.  `slice?` cuts a piece out of a text and has nothing to give where one
of its two ends lies within a character, behind the text or in the wrong order.

* `IsBoundary` — a byte at which a text may be cut.
* `slice?_eq_some_iff` — what is cut out of a text stands in it, behind so many bytes.
-/

/-- A text may be cut in front of this byte. -/
def IsBoundary (text : String) (offset : Nat) : Prop :=
  (String.Pos.Raw.mk offset).IsValid text

instance (text : String) (offset : Nat) : Decidable (IsBoundary text offset) :=
  inferInstanceAs (Decidable (String.Pos.Raw.IsValid _ _))

/-- The piece of a text from one byte up to another, where the text may be cut at both. -/
def slice? (text : String) (first last : Nat) : Option String :=
  if h : IsBoundary text first ∧ IsBoundary text last ∧ first ≤ last then
    some (text.extract ⟨⟨first⟩, h.1⟩ ⟨⟨last⟩, h.2.1⟩)
  else none

/-- A text may be cut behind each of its beginnings. -/
theorem isBoundary_iff {text : String} {offset : Nat} :
    IsBoundary text offset ↔
      ∃ before after, text = before ++ after ∧ before.utf8ByteSize = offset := by
  unfold IsBoundary
  rw [String.Pos.Raw.isValid_iff_exists_append]
  refine exists_congr fun before => exists_congr fun after => and_congr_right fun _ => ?_
  rw [String.Pos.Raw.ext_iff]
  exact eq_comm

theorem IsBoundary.le {text : String} {offset : Nat} (h : IsBoundary text offset) :
    offset ≤ text.utf8ByteSize :=
  String.Pos.Raw.IsValid.le_rawEndPos h

/-- A piece of a text is cut out where it stands. -/
theorem slice?_append (before piece after : String) :
    slice? (before ++ piece ++ after) before.utf8ByteSize
      (before.utf8ByteSize + piece.utf8ByteSize) = some piece := by
  have hfirst : IsBoundary (before ++ piece ++ after) before.utf8ByteSize :=
    isBoundary_iff.mpr ⟨before, piece ++ after, String.append_assoc, rfl⟩
  have hlast : IsBoundary (before ++ piece ++ after)
      (before.utf8ByteSize + piece.utf8ByteSize) :=
    isBoundary_iff.mpr ⟨before ++ piece, after, rfl, String.utf8ByteSize_append⟩
  rw [slice?, dif_pos ⟨hfirst, hlast, Nat.le_add_right _ _⟩, Option.some.injEq,
    ← String.toByteArray_inj]
  show (before ++ piece ++ after).toByteArray.extract (before.utf8ByteSize + 0)
    (before.utf8ByteSize + piece.utf8ByteSize) = piece.toByteArray
  rw [String.toByteArray_append, String.toByteArray_append, ByteArray.append_assoc,
    ByteArray.extract_append_size_add' String.size_toByteArray.symm]
  exact ByteArray.extract_append_eq_left String.size_toByteArray.symm

/-- Of two beginnings of a text the one with fewer bytes begins the other. -/
theorem exists_append_of_size_le {before after front behind : String}
    (h : before ++ after = front ++ behind)
    (hsize : before.utf8ByteSize ≤ front.utf8ByteSize) : ∃ piece, front = before ++ piece := by
  have hchars : before.toList ++ after.toList = front.toList ++ behind.toList := by
    rw [← String.toList_append, h, String.toList_append]
  rcases List.append_eq_append_iff.mp hchars with ⟨more, hfront, _⟩ | ⟨more, hbefore, _⟩
  · exact ⟨String.ofList more, by simp [← String.toList_inj, hfront]⟩
  · -- the other one is no longer, so that nothing is left of this one behind it
    have hlonger : before = front ++ String.ofList more := by
      simp [← String.toList_inj, hbefore]
    rw [hlonger, String.utf8ByteSize_append] at hsize
    have hnone : String.ofList more = "" := String.utf8ByteSize_eq_zero_iff.mp (by omega)
    exact ⟨"", by rw [hlonger, hnone, String.append_empty, String.append_empty]⟩

/-- **Pieces of a text.** A piece is cut out between two bytes exactly if it stands between them. -/
theorem slice?_eq_some_iff {text piece : String} {first last : Nat} :
    slice? text first last = some piece ↔ ∃ before after, text = before ++ piece ++ after ∧
      before.utf8ByteSize = first ∧ (before ++ piece).utf8ByteSize = last := by
  constructor
  · intro h
    have hcut : IsBoundary text first ∧ IsBoundary text last ∧ first ≤ last := by
      refine Decidable.byContradiction fun hnot => ?_
      rw [slice?, dif_neg hnot] at h
      cases h
    obtain ⟨hfirst, hlast, hle⟩ := hcut
    obtain ⟨before, rest, hbefore, rfl⟩ := isBoundary_iff.mp hfirst
    obtain ⟨front, after, rfl, rfl⟩ := isBoundary_iff.mp hlast
    obtain ⟨other, rfl⟩ := exists_append_of_size_le hbefore.symm hle
    rw [String.utf8ByteSize_append, slice?_append] at h
    obtain rfl := Option.some.inj h
    exact ⟨before, after, rfl, rfl, rfl⟩
  · rintro ⟨before, after, rfl, rfl, rfl⟩
    rw [String.utf8ByteSize_append]
    exact slice?_append before piece after

end EmojiScript
