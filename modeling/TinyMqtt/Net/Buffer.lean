import TinyMqtt.Codec.Decode
import TinyMqtt.Lib.LinkedList
import TinyMqtt.Lib.Run

/-!
The byte buffer of a connection (`tmq_buffer_t`): a linked list of chunks in
the heap, filled at the end of the last chunk and emptied from the front of
the first one. The decoders' model takes the buffer for a plain list of bytes;
here the operations are those of the source, on pointers and indices, and
they refine the operations on the list.

The counter `chunks`, which no function reads, is left out.
-/

namespace TinyMqtt

open LinkedList Run

/-! ### Blocks of memory -/

/-- `memcpy` from a block, when it stays inside. -/
def readAt (buf : Bytes) (i n : Nat) : Option Bytes :=
  if i + n ≤ buf.length then some ((buf.drop i).take n) else none

/-- `memcpy` into a block, when it stays inside. -/
def writeAt (buf : Bytes) (i : Nat) (data : Bytes) : Option Bytes :=
  if i + data.length ≤ buf.length then
    some (buf.take i ++ data ++ buf.drop (i + data.length))
  else none

/-- What `malloc` returns: an address, and the bytes that happen to be there. -/
structure Block where
  addr : Addr
  content : Nat → UInt8

theorem length_of_writeAt {buf data after : Bytes} {i : Nat}
    (h : writeAt buf i data = some after) : after.length = buf.length := by
  obtain ⟨hfits, hafter⟩ := Option.ite_none_right_eq_some.mp h
  obtain rfl := Option.some.inj hafter
  simp only [List.length_append, List.length_take, List.length_drop]
  omega

/-- What stands before the place written to stays. -/
theorem take_writeAt {buf data after : Bytes} {i : Nat} (h : writeAt buf i data = some after) :
    after.take (i + data.length) = buf.take i ++ data := by
  obtain ⟨hfits, hafter⟩ := Option.ite_none_right_eq_some.mp h
  obtain rfl := Option.some.inj hafter
  refine List.take_left' ?_
  simp only [List.length_append, List.length_take]
  omega

/-! ### Chunks -/

def bufferChunkMin : Nat := 512

/-- `tmq_buffer_chunk_t`, but for its link. -/
structure Chunk where
  chunkSize : Nat
  readIdx : Nat
  writeIdx : Nat
  buf : Bytes

namespace Chunk

/-- `CHUNK_DATA_LEN`. -/
def dataLen (chunk : Chunk) : Nat := chunk.writeIdx - chunk.readIdx

/-- `CHUNK_WRITEABLE`. -/
def writeable (chunk : Chunk) : Nat := chunk.chunkSize - chunk.writeIdx

/-- `CHUNK_AVAL_SPACE`. -/
def availSpace (chunk : Chunk) : Nat := chunk.chunkSize - (chunk.writeIdx - chunk.readIdx)

/-- `chunk->read_idx += size`. -/
def advance (chunk : Chunk) (size : Nat) : Chunk :=
  { chunk with readIdx := chunk.readIdx + size }

/-- The copy behind the write index that every branch of `tmq_buffer_append`
ends with. -/
def append (chunk : Chunk) (data : Bytes) : Option Chunk := do
  let buf ← writeAt chunk.buf chunk.writeIdx data
  some { chunk with writeIdx := chunk.writeIdx + data.length, buf := buf }

/-- The bytes that were written and not yet read. -/
def data (chunk : Chunk) : Bytes := (chunk.buf.take chunk.writeIdx).drop chunk.readIdx

/-- The indices are in order, inside the block. -/
structure WellFormed (chunk : Chunk) : Prop where
  read_le : chunk.readIdx ≤ chunk.writeIdx
  write_le : chunk.writeIdx ≤ chunk.chunkSize
  size : chunk.buf.length = chunk.chunkSize

theorem WellFormed.length_data {chunk : Chunk} (h : chunk.WellFormed) :
    chunk.data.length = chunk.dataLen := by
  have hwrite := h.write_le
  have hsize := h.size
  simp only [data, dataLen, List.length_drop, List.length_take]
  omega

theorem WellFormed.writeable_le_availSpace {chunk : Chunk} (h : chunk.WellFormed) :
    chunk.writeable ≤ chunk.availSpace := by
  have hwrite := h.write_le
  simp only [writeable, availSpace]
  omega

/-- Reading from a chunk copies what stands first in its data. -/
theorem WellFormed.readAt {chunk : Chunk} (h : chunk.WellFormed) {n : Nat}
    (hn : n ≤ chunk.dataLen) :
    readAt chunk.buf chunk.readIdx n = some (chunk.data.take n) := by
  have hwrite := h.write_le
  have hsize := h.size
  have hread := h.read_le
  simp only [dataLen] at hn
  rw [TinyMqtt.readAt, if_pos (by omega), data, List.drop_take, List.take_take,
    Nat.min_eq_left hn]

theorem WellFormed.readAt_data {chunk : Chunk} (h : chunk.WellFormed) :
    TinyMqtt.readAt chunk.buf chunk.readIdx chunk.dataLen = some chunk.data := by
  rw [h.readAt le_rfl, ← h.length_data, List.take_length]

theorem WellFormed.advance {chunk : Chunk} (h : chunk.WellFormed) {n : Nat}
    (hn : n ≤ chunk.dataLen) : (chunk.advance n).WellFormed := by
  have hread := h.read_le
  simp only [dataLen] at hn
  refine ⟨?_, h.write_le, h.size⟩
  change chunk.readIdx + n ≤ chunk.writeIdx
  omega

@[simp] theorem data_advance (chunk : Chunk) (n : Nat) :
    (chunk.advance n).data = chunk.data.drop n := by
  simp only [data, Chunk.advance, List.drop_drop]

/-- A chunk with enough room takes new bytes behind its data. -/
theorem WellFormed.append {chunk : Chunk} (h : chunk.WellFormed) {data : Bytes}
    (hfits : data.length ≤ chunk.writeable) :
    ∃ after, chunk.append data = some after ∧ after.WellFormed ∧
      after.data = chunk.data ++ data := by
  have hwrite := h.write_le
  have hread := h.read_le
  have hsize := h.size
  simp only [writeable] at hfits
  have hroom : chunk.writeIdx + data.length ≤ chunk.buf.length := by omega
  obtain ⟨buf, hbuf⟩ : ∃ buf, writeAt chunk.buf chunk.writeIdx data = some buf :=
    ⟨_, if_pos hroom⟩
  refine ⟨{ chunk with writeIdx := chunk.writeIdx + data.length, buf := buf }, ?_, ?_, ?_⟩
  · simp [Chunk.append, hbuf]
  · refine ⟨Nat.le_add_right_of_le hread, ?_, ?_⟩
    · change chunk.writeIdx + data.length ≤ chunk.chunkSize
      omega
    · exact (length_of_writeAt hbuf).trans hsize
  · simp only [Chunk.data, take_writeAt hbuf]
    refine List.drop_append_of_le_length ?_
    rw [List.length_take]
    omega

theorem chunkSize_append {chunk after : Chunk} {data : Bytes}
    (h : chunk.append data = some after) : after.chunkSize = chunk.chunkSize := by
  obtain ⟨buf, -, hafter⟩ := Option.bind_eq_some_iff.mp h
  obtain rfl := Option.some.inj hafter
  rfl

end Chunk

/-- `buffer_chunk_new`. Running out of memory ends the program. -/
def bufferChunkNew (malloc : Block) (size : Nat) : Chunk :=
  let size := if size < bufferChunkMin then bufferChunkMin else size
  { chunkSize := size, readIdx := 0, writeIdx := 0, buf := (List.range size).map malloc.content }

theorem bufferChunkNew_wellFormed (malloc : Block) (size : Nat) :
    (bufferChunkNew malloc size).WellFormed :=
  ⟨le_rfl, Nat.zero_le _, by simp [bufferChunkNew]⟩

theorem le_writeable_bufferChunkNew (malloc : Block) (size : Nat) :
    size ≤ (bufferChunkNew malloc size).writeable := by
  simp only [Chunk.writeable, bufferChunkNew]
  split <;> omega

theorem chunkSize_bufferChunkNew (malloc : Block) (size : Nat) :
    (bufferChunkNew malloc size).chunkSize = max bufferChunkMin size := by
  simp only [bufferChunkNew]
  split <;> omega

@[simp] theorem data_bufferChunkNew (malloc : Block) (size : Nat) :
    (bufferChunkNew malloc size).data = [] := rfl

def bufferChunkRealign (chunk : Chunk) : Option Chunk :=
  if chunk.readIdx = 0 then some chunk
  else do
    let data ← readAt chunk.buf chunk.readIdx chunk.dataLen
    let buf ← writeAt chunk.buf 0 data
    some { chunk with writeIdx := chunk.writeIdx - chunk.readIdx, readIdx := 0, buf := buf }

/-- Realigning moves the data to the front of the block. -/
theorem bufferChunkRealign_spec {chunk : Chunk} (h : chunk.WellFormed) :
    ∃ after, bufferChunkRealign chunk = some after ∧ after.WellFormed ∧ after.data = chunk.data ∧
      after.writeable = chunk.availSpace := by
  have hwrite := h.write_le
  have hread := h.read_le
  have hsize := h.size
  by_cases hzero : chunk.readIdx = 0
  · refine ⟨chunk, if_pos hzero, h, rfl, ?_⟩
    simp only [Chunk.writeable, Chunk.availSpace]
    omega
  · have hlen : chunk.data.length = chunk.writeIdx - chunk.readIdx := h.length_data
    have hroom : 0 + chunk.data.length ≤ chunk.buf.length := by omega
    obtain ⟨buf, hbuf⟩ : ∃ buf, writeAt chunk.buf 0 chunk.data = some buf := ⟨_, if_pos hroom⟩
    refine ⟨⟨chunk.chunkSize, 0, chunk.writeIdx - chunk.readIdx, buf⟩, ?_, ?_, ?_, ?_⟩
    · simp [bufferChunkRealign, hzero, h.readAt_data, hbuf]
    · refine ⟨Nat.zero_le _, ?_, (length_of_writeAt hbuf).trans hsize⟩
      exact (Nat.sub_le _ _).trans hwrite
    · have hfront := take_writeAt hbuf
      rwa [Nat.zero_add, List.take_zero, List.nil_append, hlen] at hfront
    · rfl

/-! ### The buffer -/

/-- `tmq_buffer_t` with the chunks allocated for it. -/
structure Buffer where
  heap : Heap Chunk
  first : Option Addr
  last : Option Addr
  readableBytes : Nat

namespace Buffer

def tmqBufferInit : Buffer := ⟨fun _ => none, none, none, 0⟩

/-- `tmq_buffer_append`. A chunk it allocates is put where `malloc` says. -/
def tmqBufferAppend (buffer : Buffer) (data : Bytes) (malloc : Block) : Option Buffer :=
  if data.length = 0 then some buffer
  else
    match buffer.last with
    | none => do
        let chunk ← (bufferChunkNew malloc data.length).append data
        some
          { heap := Function.update buffer.heap malloc.addr (some ⟨none, chunk⟩)
            first := some malloc.addr
            last := some malloc.addr
            readableBytes := buffer.readableBytes + data.length }
    | some last => do
        let cell ← buffer.heap last
        if data.length ≤ cell.value.writeable then
          let chunk ← cell.value.append data
          some { buffer with
            heap := Function.update buffer.heap last (some ⟨cell.next, chunk⟩)
            readableBytes := buffer.readableBytes + data.length }
        else if data.length ≤ cell.value.availSpace then
          let chunk ← bufferChunkRealign cell.value
          -- the assertion: realigning made enough room
          guard (data.length ≤ chunk.writeable)
          let chunk ← chunk.append data
          some { buffer with
            heap := Function.update buffer.heap last (some ⟨cell.next, chunk⟩)
            readableBytes := buffer.readableBytes + data.length }
        else
          let lastWritable := cell.value.writeable
          let chunk ← cell.value.append (data.take lastWritable)
          let remain := data.drop lastWritable
          let newChunk ← (bufferChunkNew malloc remain.length).append remain
          some { buffer with
            heap := Function.update
              (Function.update buffer.heap last (some ⟨some malloc.addr, chunk⟩))
              malloc.addr (some ⟨none, newChunk⟩)
            last := some malloc.addr
            readableBytes := buffer.readableBytes + data.length }

/-- The loop of `buffer_read_internal`: whole chunks are copied, and freed
when they are to be removed. The result is where the loop stopped, with the
size that is left and what was copied. -/
def readChunks (remove : Bool) :
    Nat → Heap Chunk → Option Addr → Nat → Bytes → Option (Heap Chunk × Option Addr × Nat × Bytes)
  | 0, _, _, _, _ => none
  | _ + 1, heap, none, size, buf => some (heap, none, size, buf)
  | rounds + 1, heap, some addr, size, buf => do
      let cell ← heap addr
      if cell.value.dataLen ≤ size then
        let bytes ← readAt cell.value.buf cell.value.readIdx cell.value.dataLen
        let heap := if remove then Function.update heap addr none else heap
        readChunks remove rounds heap cell.next (size - cell.value.dataLen) (buf ++ bytes)
      else some (heap, some addr, size, buf)

/-- What `buffer_read_internal` takes of the chunk at which its loop stopped. -/
def readPartly (remove : Bool) (heap : Heap Chunk) (chunk : Option Addr) (size : Nat)
    (buf : Bytes) : Option (Heap Chunk × Bytes) :=
  match chunk with
  | none => some (heap, buf)
  | some addr =>
      if size = 0 then some (heap, buf)
      else do
        let cell ← heap addr
        let bytes ← readAt cell.value.buf cell.value.readIdx size
        some (if remove then
            Function.update heap addr (some ⟨cell.next, cell.value.advance size⟩)
          else heap, buf ++ bytes)

/-- `buffer_read_internal`, with what it copies. The loop takes a byte at
least in each round, as every chunk holds data. -/
def bufferReadInternal (buffer : Buffer) (size : Nat) (remove : Bool) : Option (Buffer × Bytes) :=
  if size = 0 then some (buffer, [])
  else
    let size := if buffer.readableBytes < size then buffer.readableBytes else size
    match buffer.first with
    | none => some (buffer, [])
    | some first => do
        let (heap, chunk, left, buf) ← readChunks remove (size + 1) buffer.heap (some first) size []
        let (heap, buf) ← readPartly remove heap chunk left buf
        if remove then
          some ({ buffer with
            heap := heap
            first := chunk
            last := if chunk.isNone then none else buffer.last }, buf)
        else some (buffer, buf)

def tmqBufferPeek (buffer : Buffer) (size : Nat) : Option (Buffer × Bytes) :=
  buffer.bufferReadInternal size false

def tmqBufferRead (buffer : Buffer) (size : Nat) : Option (Buffer × Bytes) := do
  let (buffer, bytes) ← buffer.bufferReadInternal size true
  some ({ buffer with readableBytes := buffer.readableBytes - bytes.length }, bytes)

/-- `be16toh` of a variable whose two bytes were all copied. -/
def word16 : Bytes → Option UInt16
  | [msb, lsb] => some (beUint16 msb lsb)
  | _ => none

/-- `tmq_buffer_peek16` of a buffer that holds two bytes. -/
def tmqBufferPeek16 (buffer : Buffer) : Option (Buffer × UInt16) := do
  let (buffer, bytes) ← buffer.tmqBufferPeek 2
  let word ← word16 bytes
  some (buffer, word)

/-- `tmq_buffer_read16` of a buffer that holds two bytes. -/
def tmqBufferRead16 (buffer : Buffer) : Option (Buffer × UInt16) := do
  let (buffer, bytes) ← buffer.tmqBufferRead 2
  let word ← word16 bytes
  some (buffer, word)

/-- The loop of `tmq_buffer_remove`. -/
def removeChunks : Nat → Heap Chunk → Option Addr → Nat → Option (Heap Chunk × Option Addr × Nat)
  | 0, _, _, _ => none
  | _ + 1, heap, none, size => some (heap, none, size)
  | rounds + 1, heap, some addr, size => do
      let cell ← heap addr
      if cell.value.dataLen ≤ size then
        removeChunks rounds (Function.update heap addr none) cell.next (size - cell.value.dataLen)
      else some (heap, some addr, size)

/-- What `tmq_buffer_remove` takes of the chunk at which its loop stopped. -/
def removePartly (heap : Heap Chunk) (chunk : Option Addr) (size : Nat) : Option (Heap Chunk) :=
  match chunk with
  | none => some heap
  | some addr =>
      if size = 0 then some heap
      else do
        let cell ← heap addr
        some (Function.update heap addr (some ⟨cell.next, cell.value.advance size⟩))

def tmqBufferRemove (buffer : Buffer) (size : Nat) : Option Buffer :=
  if size = 0 then some buffer
  else
    let size := if buffer.readableBytes < size then buffer.readableBytes else size
    match buffer.first with
    | none => some buffer
    | some first => do
        let (heap, chunk, left) ← removeChunks (size + 1) buffer.heap (some first) size
        let heap ← removePartly heap chunk left
        some
          { heap := heap
            first := chunk
            last := if chunk.isNone then none else buffer.last
            readableBytes := buffer.readableBytes - size }

end Buffer

end TinyMqtt
