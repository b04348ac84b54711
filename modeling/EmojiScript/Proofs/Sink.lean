import EmojiScript.Sink

namespace EmojiScript

/-!
# Sinks behind many writes

A sink that never fails takes one write after another.  A buffer without a limit is such a sink and
holds all that was written to it.  A buffer with a limit holds the first bytes of that: it takes a
chunk as a whole, or fills up with it and refuses the rest.

* `Sink.afterWrites`, `Sink.NeverFails` — writes one after another, none of them refused.
* `bytesAfter` — what was written, as one array of bytes.
* `Buffer.afterWrites_unlimited` — a buffer without a limit.
* `Buffer.write_of_fits`, `Buffer.write_of_not_fits` — a buffer with a limit.
-/

/-! ### Sinks that never fail -/

namespace Sink

variable {σ : Type} [Sink σ] {sink : σ}

/-- The sink behind writes, whatever it says to them. -/
def afterWrites (sink : σ) (chunks : List ByteArray) : σ :=
  chunks.foldl (fun sink chunk => (write sink chunk).2) sink

theorem afterWrites_append (sink : σ) (chunks more : List ByteArray) :
    afterWrites sink (chunks ++ more) = afterWrites (afterWrites sink chunks) more :=
  List.foldl_append

/-- No write is refused, now or behind any others. -/
def NeverFails (sink : σ) : Prop :=
  ∀ chunks chunk, (write (afterWrites sink chunks) chunk).1 = .ok ()

theorem NeverFails.write_eq (h : NeverFails sink) (chunk : ByteArray) :
    write sink chunk = (.ok (), afterWrites sink [chunk]) :=
  Prod.ext (h [] chunk) rfl

theorem NeverFails.afterWrites (h : NeverFails sink) (chunks : List ByteArray) :
    NeverFails (afterWrites sink chunks) := by
  intro more chunk
  rw [← afterWrites_append]
  exact h (chunks ++ more) chunk

end Sink

/-! ### Bytes behind bytes -/

/-- The bytes with chunks put behind them. -/
def bytesAfter (bytes : ByteArray) (chunks : List ByteArray) : ByteArray :=
  chunks.foldl (· ++ ·) bytes

theorem bytesAfter_append (bytes : ByteArray) (chunks more : List ByteArray) :
    bytesAfter bytes (chunks ++ more) = bytesAfter (bytesAfter bytes chunks) more :=
  List.foldl_append

/-- Bytes that stay within a limit are all before it. -/
theorem extract_of_size_le {bytes : ByteArray} {limit : Nat} (h : bytes.size ≤ limit) :
    bytes.extract 0 limit = bytes := by
  simp [ByteArray.ext_iff, h]

/-- What stands behind a limit does not change what stands before it. -/
theorem extract_append_of_le {bytes : ByteArray} {limit : Nat} (h : limit ≤ bytes.size)
    (more : ByteArray) : (bytes ++ more).extract 0 limit = bytes.extract 0 limit := by
  have hnone : limit - bytes.size = 0 := Nat.sub_eq_zero_of_le h
  simp [ByteArray.extract_append, hnone]

/-- Chunks behind a limit do not change what stands before it. -/
theorem extract_bytesAfter {bytes : ByteArray} {limit : Nat} (h : limit ≤ bytes.size)
    (chunks : List ByteArray) :
    limit ≤ (bytesAfter bytes chunks).size ∧
      (bytesAfter bytes chunks).extract 0 limit = bytes.extract 0 limit := by
  induction chunks generalizing bytes with
  | nil => exact ⟨h, rfl⟩
  | cons chunk rest ih =>
    have hle : limit ≤ (bytes ++ chunk).size := by
      rw [ByteArray.size_append]
      omega
    obtain ⟨hsize, hextract⟩ := ih hle
    exact ⟨hsize, hextract.trans (extract_append_of_le h chunk)⟩

/-! ### Buffers -/

namespace Buffer

/-- The buffer with room for everything. -/
def unlimited (buffer : Buffer) : Buffer := { buffer with limit? := none }

/-- The buffer with room for so many bytes in all. -/
def limitedTo (buffer : Buffer) (limit : Nat) : Buffer := { buffer with limit? := some limit }

/-- The buffer with these bytes in place of its own. -/
def holding (buffer : Buffer) (bytes : ByteArray) : Buffer := { buffer with bytes }

/-- A buffer without a limit holds all that was written to it. -/
theorem afterWrites_unlimited (buffer : Buffer) (chunks : List ByteArray) :
    Sink.afterWrites buffer.unlimited chunks =
      (buffer.holding (bytesAfter buffer.bytes chunks)).unlimited := by
  induction chunks generalizing buffer with
  | nil => rfl
  | cons chunk rest ih =>
    have hwrite : buffer.unlimited.write chunk =
        (.ok (), (buffer.holding (buffer.bytes ++ chunk)).unlimited) := write_of_unlimited rfl chunk
    show Sink.afterWrites (buffer.unlimited.write chunk).2 rest = _
    rw [hwrite]
    exact ih (buffer.holding (buffer.bytes ++ chunk))

theorem neverFails_unlimited (buffer : Buffer) : Sink.NeverFails buffer.unlimited := by
  intro chunks chunk
  rw [afterWrites_unlimited]
  show (write _ chunk).1 = _
  rw [write_of_unlimited rfl]

variable {buffer : Buffer} {limit : Nat} {chunk : ByteArray}

/-- Behind what it holds, a buffer keeps what stands before the limit. -/
theorem append_fitting (hroom : buffer.bytes.size ≤ limit) :
    buffer.bytes ++ (buffer.limitedTo limit).fitting chunk =
      (buffer.bytes ++ chunk).extract 0 limit := by
  show buffer.bytes ++ chunk.extract 0 (limit - buffer.bytes.size) = _
  rw [ByteArray.extract_append, extract_of_size_le hroom, Nat.zero_sub]

/-- A chunk that fits is taken. -/
theorem write_of_fits (h : (buffer.bytes ++ chunk).size ≤ limit) :
    (buffer.limitedTo limit).write chunk =
      (.ok (), (buffer.holding (buffer.bytes ++ chunk)).limitedTo limit) := by
  rw [ByteArray.size_append] at h
  have hfitting : (buffer.limitedTo limit).fitting chunk = chunk :=
    extract_of_size_le (show chunk.size ≤ limit - buffer.bytes.size by omega)
  simp only [write, hfitting]
  rfl

/-- Of a chunk that does not fit, the bytes before the limit are kept. -/
theorem write_of_not_fits (hroom : buffer.bytes.size ≤ limit)
    (h : limit < (buffer.bytes ++ chunk).size) :
    (buffer.limitedTo limit).write chunk =
      (.error buffer.overfull,
        (buffer.holding ((buffer.bytes ++ chunk).extract 0 limit)).limitedTo limit) := by
  rw [← append_fitting hroom]
  rw [ByteArray.size_append] at h
  have hrefused : ((buffer.limitedTo limit).fitting chunk).size ≠ chunk.size := by
    show (chunk.extract 0 (limit - buffer.bytes.size)).size ≠ _
    rw [ByteArray.size_extract]
    omega
  simp only [write, if_neg hrefused]
  rfl

end Buffer

end EmojiScript
