namespace EmojiScript

/-!
# Sinks

A sink takes the bytes that a program prints.  It may refuse a write or a flush with a reason,
and is in a state of its own afterwards too, for it may have kept some of what it refused.

- `Sink`: what a printer asks of a sink.
- `Buffer`: a sink that keeps bytes, as many as it has room for.
-/

/-- What a printer asks of a sink, a type of states. -/
class Sink (σ : Type) where
  /-- Takes all of the bytes, or refuses with a reason. -/
  write : σ → ByteArray → Except String Unit × σ
  /-- Passes on what it holds, or refuses with a reason. -/
  flush : σ → Except String Unit × σ

/-- A sink that keeps what is written to it, up to a limit if it has one. -/
structure Buffer where
  /-- What was written and kept. -/
  bytes : ByteArray := .empty
  /-- How many bytes are kept at most. -/
  limit? : Option Nat := none
  /-- The reason given for bytes that do not fit. -/
  overfull : String := "sink is full"
  /-- The reason given at every flush, where flushes are refused. -/
  flushRefusal? : Option String := none
  /-- How many flushes were not refused. -/
  flushes : Nat := 0
deriving Inhabited

namespace Buffer

/-- The bytes of `chunk` for which there is room. -/
def fitting (buffer : Buffer) (chunk : ByteArray) : ByteArray :=
  match buffer.limit? with
  | none => chunk
  | some limit => chunk.extract 0 (limit - buffer.bytes.size)

/-- Keeps what fits, and refuses where something does not. -/
def write (buffer : Buffer) (chunk : ByteArray) : Except String Unit × Buffer :=
  let kept := buffer.fitting chunk
  let result := if kept.size = chunk.size then .ok () else .error buffer.overfull
  (result, { buffer with bytes := buffer.bytes ++ kept })

/-- A buffer without a limit keeps everything. -/
theorem write_of_unlimited {buffer : Buffer} (h : buffer.limit? = none) (chunk : ByteArray) :
    buffer.write chunk = (.ok (), { buffer with bytes := buffer.bytes ++ chunk }) := by
  simp [write, fitting, h]

/-- Counts the flush, or refuses it. -/
def flush (buffer : Buffer) : Except String Unit × Buffer :=
  match buffer.flushRefusal? with
  | none => (.ok (), { buffer with flushes := buffer.flushes + 1 })
  | some reason => (.error reason, buffer)

instance : Sink Buffer where
  write := write
  flush := flush

end Buffer

end EmojiScript
