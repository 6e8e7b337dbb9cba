import TinyMqtt.Net.ByteQueue

/-!
The receiving side of a connection without SSL. `tmq_buffer_read_fd` makes
room for all that `FIONREAD` reports before it calls `readv`: write indices are
advanced and a new chunk is linked, whatever `readv` then delivers. What it
leaves in the buffer is the old contents, the bytes read, and as many bytes
that nobody wrote as the call fell short of.
-/

namespace TinyMqtt

open LinkedList

def fdMaxReadBytes : Nat := 65536

/-- How the socket answers: `FIONREAD` fails, or it reports a number of bytes
and `readv` then delivers some or fails. -/
inductive SocketRead where
  | ioctlFailed
  | readable (size : Nat) (delivered : Option Bytes)
  deriving DecidableEq, Repr

namespace SocketRead

/-- The total that `tmq_buffer_read_fd` asks of `readv`. -/
def requested (max : Nat) : SocketRead → Nat
  | .ioctlFailed => 0
  | .readable size _ =>
      if max = 0 then min size fdMaxReadBytes else min size (min max fdMaxReadBytes)

def bytes : SocketRead → Bytes
  | .ioctlFailed => []
  | .readable _ delivered => delivered.getD []

/-- What `tmq_buffer_read_fd` returns; none stands for −1. -/
def returned : SocketRead → Option Nat
  | .ioctlFailed => some 0
  | .readable _ delivered => delivered.map List.length

end SocketRead

/-- `struct iovec`: a place in a chunk's block, and how much of it. -/
structure Iovec where
  chunk : Addr
  offset : Nat
  len : Nat

namespace Chunk

/-- `chunk->write_idx += len`. -/
def reserve (chunk : Chunk) (len : Nat) : Chunk :=
  { chunk with writeIdx := chunk.writeIdx + len }

def fill (chunk : Chunk) (offset : Nat) (data : Bytes) : Option Chunk := do
  let buf ← writeAt chunk.buf offset data
  some { chunk with buf := buf }

/-- Room that is reserved behind the data and then filled in part: the rest of
it counts as data all the same. -/
theorem WellFormed.reserve_fill {chunk : Chunk} (h : chunk.WellFormed) {len : Nat}
    (hroom : len ≤ chunk.writeable) {data : Bytes} (hdata : data.length ≤ len) :
    ∃ after stale, (chunk.reserve len).fill chunk.writeIdx data = some after ∧
      after.WellFormed ∧ after.data = chunk.data ++ (data ++ stale) ∧
      stale.length = len - data.length := by
  have hread := h.read_le
  have hwrite := h.write_le
  have hsize := h.size
  simp only [writeable] at hroom
  obtain ⟨buf, hbuf⟩ : ∃ buf, writeAt chunk.buf chunk.writeIdx data = some buf :=
    ⟨_, if_pos (by omega)⟩
  have hlen : buf.length = chunk.chunkSize := (length_of_writeAt hbuf).trans hsize
  obtain ⟨stale, hfront⟩ : ∃ stale, buf.take (chunk.writeIdx + len)
      = chunk.buf.take chunk.writeIdx ++ (data ++ stale) := by
    refine ⟨(buf.take (chunk.writeIdx + len)).drop (chunk.writeIdx + data.length), ?_⟩
    have hsplit := List.take_append_drop (chunk.writeIdx + data.length)
      (buf.take (chunk.writeIdx + len))
    rw [List.take_take, Nat.min_eq_left (by omega), take_writeAt hbuf] at hsplit
    rw [← List.append_assoc, hsplit]
  have hlens := congrArg List.length hfront
  simp only [List.length_append, List.length_take] at hlens
  refine ⟨{ chunk.reserve len with buf := buf }, stale, ?_, ?_, ?_, by omega⟩
  · simp [fill, Chunk.reserve, hbuf]
  · refine ⟨Nat.le_add_right_of_le hread, ?_, hlen⟩
    change chunk.writeIdx + len ≤ chunk.chunkSize
    omega
  · change (buf.take (chunk.writeIdx + len)).drop chunk.readIdx = _
    rw [hfront, Chunk.data]
    apply List.drop_append_of_le_length
    rw [List.length_take]
    omega

end Chunk

namespace Buffer

/-- What `tmq_buffer_read_fd` does with the last chunk: if there is room in
it, as much of it is given to `readv` as is asked for. -/
def reserveLast (buffer : Buffer) (size : Nat) : Option (Buffer × List Iovec × Nat) :=
  match buffer.last with
  | none => some (buffer, [], size)
  | some last => do
      let cell ← buffer.heap last
      let writable := cell.value.writeable
      if 0 < writable then
        let len := min writable size
        some
          ({ buffer with
            heap := Function.update buffer.heap last (some ⟨cell.next, cell.value.reserve len⟩) },
            [⟨last, cell.value.writeIdx, len⟩], size - len)
      else some (buffer, [], size)

def reserveNew (buffer : Buffer) (size : Nat) (malloc : Block) : Option (Buffer × List Iovec) :=
  if 0 < size then
    let chunk := (bufferChunkNew malloc size).reserve size
    let vecs := [⟨malloc.addr, 0, size⟩]
    match buffer.last with
    | none =>
        some
          ({ buffer with
            heap := Function.update buffer.heap malloc.addr (some ⟨none, chunk⟩)
            first := some malloc.addr
            last := some malloc.addr }, vecs)
    | some last => do
        let cell ← buffer.heap last
        some
          ({ buffer with
            heap := Function.update
              (Function.update buffer.heap last (some ⟨some malloc.addr, cell.value⟩))
              malloc.addr (some ⟨none, chunk⟩)
            last := some malloc.addr }, vecs)
  else some (buffer, [])

/-- `readv`: the bytes go into the places in turn. -/
def readv : Heap Chunk → List Iovec → Bytes → Option (Heap Chunk)
  | heap, [], _ => some heap
  | heap, vec :: vecs, data => do
      let cell ← heap vec.chunk
      let chunk ← cell.value.fill vec.offset (data.take vec.len)
      readv (Function.update heap vec.chunk (some ⟨cell.next, chunk⟩)) vecs (data.drop vec.len)

/-- `tmq_buffer_read_fd`, with what it returns. A chunk it allocates is put
where `malloc` says. -/
def tmqBufferReadFd (buffer : Buffer) (fd : SocketRead) (max : Nat) (malloc : Block) :
    Option (Buffer × Option Nat) :=
  match fd with
  | .ioctlFailed => some (buffer, some 0)
  | .readable _ delivered => do
      let (buffer, vecs, left) ← buffer.reserveLast (fd.requested max)
      let (buffer, more) ← buffer.reserveNew left malloc
      let heap ← readv buffer.heap (vecs ++ more) (delivered.getD [])
      some
        ({ buffer with
          heap := heap
          readableBytes := buffer.readableBytes + (delivered.getD []).length },
          delivered.map List.length)

/-! ### What is left in the buffer -/

/-- Filling a place of no length does nothing. -/
theorem fill_nil {chunk : Chunk} {offset : Nat} (h : offset ≤ chunk.buf.length) :
    chunk.fill offset [] = some chunk := by
  simp [Chunk.fill, writeAt, h]

section Holds

variable {buffer : Buffer} {cells : List (Addr × Chunk)} {last : Addr × Chunk}

/-- The room of the last chunk that is given to `readv`. That no place is
passed on when there is none makes no difference. -/
theorem Holds.reserveLast (h : buffer.Holds (cells ++ [last])) (size : Nat) :
    ∃ vecs, buffer.reserveLast size
        = some ({ buffer with
            heap := Function.update buffer.heap last.1
              (some ⟨none, last.2.reserve (min last.2.writeable size)⟩) }, vecs,
            size - min last.2.writeable size) ∧
      ∀ heap next more data,
        heap last.1 = some ⟨next, last.2.reserve (min last.2.writeable size)⟩ →
        readv heap (vecs ++ more) data
          = ((last.2.reserve (min last.2.writeable size)).fill last.2.writeIdx
              (data.take (min last.2.writeable size))).bind fun chunk =>
            readv (Function.update heap last.1 (some ⟨next, chunk⟩)) more
              (data.drop (min last.2.writeable size)) := by
  have hlast : buffer.last = some last.1 := by simpa using h.last
  have hwf : last.2.WellFormed := h.wellFormed last (by simp)
  by_cases hroom : 0 < last.2.writeable
  · refine ⟨[⟨last.1, last.2.writeIdx, min last.2.writeable size⟩], ?_, ?_⟩
    · simp [Buffer.reserveLast, hlast, h.heap_last, hroom]
    · intro heap next more data hcell
      simp [readv, hcell]
  · obtain hnone : last.2.writeable = 0 := Nat.eq_zero_of_not_pos hroom
    refine ⟨[], ?_, ?_⟩
    · have hsame : last.2.reserve 0 = last.2 := rfl
      have hheap : Function.update buffer.heap last.1 (some ⟨none, last.2⟩) = buffer.heap := by
        rw [← h.heap_last]
        exact Function.update_eq_self last.1 buffer.heap
      rw [hnone, Nat.zero_min, hsame, hheap]
      change buffer.reserveLast size = some (buffer, [], size)
      simp [Buffer.reserveLast, hlast, h.heap_last, hnone]
    · intro heap next more data hcell
      have hinside : last.2.writeIdx ≤ last.2.buf.length := by
        rw [hwf.size]
        exact hwf.write_le
      rw [hnone, Nat.zero_min] at hcell ⊢
      have hheap : Function.update heap last.1 (some ⟨next, last.2.reserve 0⟩) = heap := by
        rw [← hcell]
        exact Function.update_eq_self last.1 heap
      have hfill : (last.2.reserve 0).fill last.2.writeIdx [] = some (last.2.reserve 0) :=
        fill_nil hinside
      rw [List.take_zero, hfill, Option.bind_some, List.drop_zero, hheap, List.nil_append]

/-- Data over two places, each with what is stale behind it: nothing goes into
the second one before the first one is full. -/
theorem exists_stale_append {n : Nat} {data first second : Bytes}
    (hfirst : first.length = n - (data.take n).length) :
    ∃ stale, data.take n ++ first ++ (data.drop n ++ second) = data ++ stale ∧
      stale.length = first.length + second.length := by
  by_cases hfull : n ≤ data.length
  · rw [List.length_take, Nat.min_eq_left hfull, Nat.sub_self] at hfirst
    refine ⟨second, ?_, by omega⟩
    rw [List.eq_nil_of_length_eq_zero hfirst, List.append_nil, ← List.append_assoc,
      List.take_append_drop]
  · have hle : data.length ≤ n := by omega
    refine ⟨first ++ second, ?_, List.length_append⟩
    rw [List.take_of_length_le hle, List.drop_eq_nil_of_le hle, List.nil_append,
      List.append_assoc]

/-- The state after the reservation and after `readv`, which never leaves the
places it was given. The counter is what it would be had all been read. -/
def ReadsInto (buffer : Buffer) (cells : List (Addr × Chunk)) (size : Nat) (data : Bytes)
    (malloc : Block) : Prop :=
  ∃ next vecs left final more heap cells' stale,
    buffer.reserveLast size = some (next, vecs, left) ∧
    next.reserveNew left malloc = some (final, more) ∧
    readv final.heap (vecs ++ more) data = some heap ∧
    final.readableBytes = buffer.readableBytes ∧
    Holds { final with heap := heap, readableBytes := buffer.readableBytes + size } cells' ∧
    contents cells' = contents cells ++ (data ++ stale) ∧
    stale.length = size - data.length

/-- A new chunk that was reserved and filled. -/
theorem exists_newChunk (malloc : Block) {size : Nat} {data : Bytes} (hdata : data.length ≤ size) :
    ∃ chunk stale, ((bufferChunkNew malloc size).reserve size).fill 0 data = some chunk ∧
      chunk.WellFormed ∧ chunk.data = data ++ stale ∧ stale.length = size - data.length ∧
      chunk.data.length = size := by
  obtain ⟨chunk, stale, hfill, hwf, hcontents, hstale⟩ :=
    (bufferChunkNew_wellFormed malloc size).reserve_fill (le_writeable_bufferChunkNew malloc size)
      hdata
  rw [data_bufferChunkNew, List.nil_append] at hcontents
  refine ⟨chunk, stale, hfill, hwf, hcontents, hstale, ?_⟩
  rw [hcontents, List.length_append]
  omega

theorem Holds.readsInto_nil (h : buffer.Holds []) {size : Nat} {data : Bytes}
    (hdata : data.length ≤ size) (malloc : Block) : buffer.ReadsInto [] size data malloc := by
  have hlast : buffer.last = none := h.last
  have hfirst : buffer.reserveLast size = some (buffer, [], size) := by
    simp [Buffer.reserveLast, hlast]
  by_cases hzero : size = 0
  · obtain rfl : data = [] := List.eq_nil_of_length_eq_zero (by omega)
    refine ⟨buffer, [], size, buffer, [], buffer.heap, [], [], hfirst, ?_, rfl, rfl, ?_, rfl, ?_⟩
    · simp [Buffer.reserveNew, hzero]
    · rw [hzero]
      exact h
    · simp [hzero]
  · obtain ⟨chunk, stale, hfill, hwf, hcontents, hstale, hlen⟩ := exists_newChunk malloc hdata
    have hnonempty : chunk.data ≠ [] := List.ne_nil_of_length_pos (by omega)
    have hnext := h.appendFirst hwf hnonempty malloc.addr
    rw [hlen] at hnext
    refine ⟨buffer, [], size,
      { buffer with
        heap := Function.update buffer.heap malloc.addr
          (some ⟨none, (bufferChunkNew malloc size).reserve size⟩)
        first := some malloc.addr
        last := some malloc.addr }, [⟨malloc.addr, 0, size⟩], _, _, stale, hfirst, ?_, ?_, rfl,
      hnext, ?_, hstale⟩
    · simp [Buffer.reserveNew, Nat.pos_of_ne_zero hzero, hlast]
    · simp [readv, List.take_of_length_le hdata, hfill, Function.update_idem]
    · simp [hcontents]

/-- All that is asked for fits into the last chunk. -/
theorem Holds.readsInto_last (h : buffer.Holds (cells ++ [last])) {size : Nat} {data : Bytes}
    (hdata : data.length ≤ size) (hroom : size ≤ last.2.writeable) (malloc : Block) :
    buffer.ReadsInto (cells ++ [last]) size data malloc := by
  obtain ⟨vecs, hreserve, hreadv⟩ := h.reserveLast size
  rw [Nat.min_eq_right hroom] at hreserve hreadv
  obtain ⟨chunk, stale, hfill, hwf, hcontents, hstale⟩ :=
    (h.wellFormed last (by simp)).reserve_fill hroom hdata
  have hnext := h.setLast hwf hcontents
  have hlen : (data ++ stale).length = size := by
    rw [List.length_append]
    omega
  rw [hlen] at hnext
  let next : Buffer :=
    { buffer with
      heap := Function.update buffer.heap last.1 (some ⟨none, last.2.reserve size⟩) }
  refine ⟨next, vecs, size - size, next, [], _, _, stale, hreserve, ?_, ?_, rfl, hnext, ?_, hstale⟩
  · simp [reserveNew]
  · have hcell : next.heap last.1 = some ⟨none, last.2.reserve size⟩ :=
      Function.update_self last.1 _ buffer.heap
    rw [hreadv _ _ _ _ hcell, List.take_of_length_le hdata, hfill]
    simp [readv, next, Function.update_idem]
  · simp [hcontents]

/-- A new chunk takes what does not fit into the last one. -/
theorem Holds.readsInto_new (h : buffer.Holds (cells ++ [last])) {size : Nat} {data : Bytes}
    (hdata : data.length ≤ size) (hroom : last.2.writeable < size) {malloc : Block}
    (hfree : buffer.heap malloc.addr = none) :
    buffer.ReadsInto (cells ++ [last]) size data malloc := by
  obtain ⟨vecs, hreserve, hreadv⟩ := h.reserveLast size
  rw [Nat.min_eq_left hroom.le] at hreserve hreadv
  obtain ⟨chunk, first, hfill, hwf, hcontents, hfirst⟩ :=
    (h.wellFormed last (by simp)).reserve_fill le_rfl
      (List.length_take_le last.2.writeable data)
  obtain ⟨newChunk, second, hfillNew, hwfNew, hcontentsNew, hsecond, hlenNew⟩ :=
    @exists_newChunk malloc (size - last.2.writeable) (data.drop last.2.writeable)
      (by rw [List.length_drop]; omega)
  obtain ⟨stale, hsame, hstale⟩ := @exists_stale_append _ _ _ second hfirst
  have hnonempty : newChunk.data ≠ [] := List.ne_nil_of_length_pos (by omega)
  have hne : malloc.addr ≠ last.1 := by
    intro heq
    rw [heq, h.heap_last] at hfree
    exact Option.some_ne_none _ hfree
  have hfree' : Function.update buffer.heap last.1 (some ⟨none, chunk⟩) malloc.addr = none := by
    rwa [Function.update_of_ne hne]
  have hnext := (h.setLast hwf hcontents).link hwfNew hnonempty hfree'
  have hlen : (data.take last.2.writeable ++ first).length = last.2.writeable := by
    have hle := List.length_take_le last.2.writeable data
    rw [List.length_append]
    omega
  rw [hlenNew, hlen, Nat.add_assoc, Nat.add_sub_cancel' hroom.le] at hnext
  simp only [Function.update_idem] at hnext
  let final : Buffer :=
    { buffer with
      heap := Function.update
        (Function.update buffer.heap last.1
          (some ⟨some malloc.addr, last.2.reserve last.2.writeable⟩)) malloc.addr
        (some ⟨none, (bufferChunkNew malloc (size - last.2.writeable)).reserve
          (size - last.2.writeable)⟩)
      last := some malloc.addr }
  have hlast : buffer.last = some last.1 := by simpa using h.last
  refine ⟨_, vecs, _, final, [⟨malloc.addr, 0, size - last.2.writeable⟩], _, _, stale, hreserve,
    ?_, ?_, rfl, hnext, ?_, ?_⟩
  · simp [reserveNew, Nat.sub_pos_of_lt hroom, hlast, final]
  · have hcell : final.heap last.1 = some ⟨some malloc.addr, last.2.reserve last.2.writeable⟩ := by
      simp [final, hne.symm]
    have hleft : (data.drop last.2.writeable).length ≤ size - last.2.writeable := by
      rw [List.length_drop]
      omega
    rw [hreadv _ _ _ _ hcell, hfill]
    simp only [Option.bind_some, readv, final, Option.bind_eq_bind, Function.update_of_ne hne,
      Function.update_self, List.take_of_length_le hleft, hfillNew]
    rw [Function.update_comm hne, Function.update_idem, Function.update_idem]
  · simp [hcontents, hcontentsNew, ← hsame]
  · rw [List.length_drop] at hsecond
    rw [List.length_take] at hfirst
    omega

theorem Holds.readsInto (h : buffer.Holds cells) {size : Nat} {data : Bytes}
    (hdata : data.length ≤ size) {malloc : Block} (hfree : buffer.heap malloc.addr = none) :
    buffer.ReadsInto cells size data malloc := by
  cases cells using List.reverseRecOn with
  | nil => exact h.readsInto_nil hdata malloc
  | append_singleton cells last =>
      rcases Nat.lt_or_ge last.2.writeable size with hroom | hroom
      · exact h.readsInto_new hdata hroom hfree
      · exact h.readsInto_last hdata hroom malloc

/-- What is behind the old contents, and what the counter says. Were it as
many as the call asked for, the buffer would be in order. -/
theorem Holds.readFd (h : buffer.Holds cells) {fd : SocketRead} {max : Nat}
    (hshort : fd.bytes.length ≤ fd.requested max) {malloc : Block}
    (hfree : buffer.heap malloc.addr = none) :
    ∃ after cells' stale, buffer.tmqBufferReadFd fd max malloc = some (after, fd.returned) ∧
      Holds { after with readableBytes := buffer.readableBytes + fd.requested max } cells' ∧
      contents cells' = contents cells ++ (fd.bytes ++ stale) ∧
      stale.length = fd.requested max - fd.bytes.length ∧
      after.readableBytes = buffer.readableBytes + fd.bytes.length := by
  cases fd with
  | ioctlFailed =>
      refine ⟨buffer, cells, [], rfl, h, ?_, rfl, rfl⟩
      simp [SocketRead.bytes]
  | readable size delivered =>
      obtain ⟨next, vecs, left, final, more, heap, cells', stale, hreserve, hnew, hreadv, hcount,
        hafter, hcontents, hstale⟩ := h.readsInto hshort hfree
      refine ⟨{ final with
          heap := heap
          readableBytes := final.readableBytes + (delivered.getD []).length }, cells', stale, ?_,
        hafter, hcontents, hstale, ?_⟩
      · have hbytes : delivered.getD [] = (SocketRead.readable size delivered).bytes := rfl
        simp only [tmqBufferReadFd, hreserve, hnew, hbytes, hreadv, Option.bind_eq_bind,
          Option.bind_some]
        rfl
      · change final.readableBytes + _ = _
        rw [hcount]
        rfl

end Holds

/-! ### All or accounted -/

/-- The buffer is a list of chunks with these bytes as contents, and
`readable_bytes` is the sum of their data lengths. -/
def Accounts (buffer : Buffer) (bytes : Bytes) : Prop :=
  ∃ cells, Segment buffer.heap buffer.first cells none ∧ contents cells = bytes ∧
    buffer.readableBytes = (cells.map fun cell => cell.2.dataLen).sum

/-- The chunks that are found are the ones that are there. -/
theorem Accounts.contents_eq {buffer : Buffer} {bytes : Bytes} (h : buffer.Accounts bytes)
    {cells : List (Addr × Chunk)} (hlinked : Segment buffer.heap buffer.first cells none) :
    contents cells = bytes := by
  obtain ⟨others, hothers, hbytes, -⟩ := h
  rwa [segment_unique hlinked hothers]

/-- `tmq_buffer_read_fd` adds exactly the bytes read just when `readv` delivers
all that was asked for: a read that fails or falls short leaves bytes in the
buffer that were never received, and the counter below the sum. -/
theorem tmqBufferReadFd_accounts_iff {buffer : Buffer} {cells : List (Addr × Chunk)}
    (h : buffer.Holds cells) (fd : SocketRead) (max : Nat)
    (hshort : fd.bytes.length ≤ fd.requested max) {malloc : Block}
    (hfree : buffer.heap malloc.addr = none) :
    ∃ after, buffer.tmqBufferReadFd fd max malloc = some (after, fd.returned) ∧
      (after.Accounts (contents cells ++ fd.bytes) ↔ fd.bytes.length = fd.requested max) := by
  obtain ⟨after, cells', stale, hread, hafter, hcontents, hstale, hcount⟩ := h.readFd hshort hfree
  refine ⟨after, hread, ?_⟩
  constructor
  · intro haccounts
    have hbytes := haccounts.contents_eq hafter.linked
    rw [hcontents, List.append_right_inj] at hbytes
    rw [List.append_right_eq_self.mp hbytes, List.length_nil] at hstale
    omega
  · intro hall
    rw [hall, Nat.sub_self] at hstale
    refine ⟨cells', hafter.linked, ?_, ?_⟩
    · rw [hcontents, List.eq_nil_of_length_eq_zero hstale, List.append_nil]
    · rw [hcount, hall]
      exact hafter.readable

/-- Three bytes are reported, two are delivered. -/
theorem tmqBufferReadFd_accounts_iff_two : ∃ after,
    tmqBufferInit.tmqBufferReadFd (.readable 3 (some [1, 2])) 0 ⟨0, fun _ => 7⟩
        = some (after, some 2) ∧
      (after.Accounts ([] ++ [1, 2]) ↔ [(1 : UInt8), 2].length = 3) :=
  tmqBufferReadFd_accounts_iff tmqBufferInit_holds (.readable 3 (some [1, 2])) 0 (by decide) rfl

/-- Five bytes are reported and `readv` is interrupted: the connection goes on
with five bytes in the buffer that never came. -/
theorem not_accounts_interrupted : ∃ after,
    tmqBufferInit.tmqBufferReadFd (.readable 5 none) 0 ⟨0, fun _ => 0⟩ = some (after, none) ∧
      ¬ after.Accounts [] := by
  have hshort : (SocketRead.readable 5 none).bytes.length
      ≤ (SocketRead.readable 5 none).requested 0 := Nat.zero_le _
  obtain ⟨after, cells, stale, hread, hafter, hcontents, hstale, -⟩ :=
    @Holds.readFd _ _ tmqBufferInit_holds _ 0 hshort ⟨0, fun _ => 0⟩ rfl
  refine ⟨after, hread, ?_⟩
  intro haccounts
  have hbytes := haccounts.contents_eq hafter.linked
  rw [hcontents] at hbytes
  obtain rfl : stale = [] := (List.append_eq_nil_iff.mp (List.append_eq_nil_iff.mp hbytes).2).2
  exact absurd hstale (by decide)

end Buffer

end TinyMqtt
