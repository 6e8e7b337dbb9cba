import TinyMqtt.Net.ByteQueue

/-!
The operations of the buffer that no connection uses: `tmq_buffer_prepend` and
the wide reads. As a queue they should add at the front and take four or eight
bytes from it. Prepending does so where the data has room before the first
chunk's; a new chunk it never links. The wide reads only peek.
-/

namespace TinyMqtt

open LinkedList

/-! ### Prepending -/

namespace Chunk

/-- The copy before the read index with which `tmq_buffer_prepend` ends. -/
def prepend (chunk : Chunk) (data : Bytes) : Option Chunk := do
  let buf ← writeAt chunk.buf (chunk.readIdx - data.length) data
  some { chunk with readIdx := chunk.readIdx - data.length, buf := buf }

/-- The same copy under `if(size)`. -/
def prependRest (chunk : Chunk) (data : Bytes) : Option Chunk :=
  if data.length = 0 then some chunk else chunk.prepend data

/-- A chunk with enough room takes bytes before its data. -/
theorem WellFormed.prepend {chunk : Chunk} (h : chunk.WellFormed) {data : Bytes}
    (hfits : data.length ≤ chunk.readIdx) :
    ∃ after, chunk.prepend data = some after ∧ after.WellFormed ∧
      after.data = data ++ chunk.data := by
  have hread := h.read_le
  have hwrite := h.write_le
  have hsize := h.size
  have hroom : chunk.readIdx - data.length + data.length ≤ chunk.buf.length := by omega
  obtain ⟨buf, hbuf⟩ : ∃ buf, writeAt chunk.buf (chunk.readIdx - data.length) data = some buf :=
    ⟨_, if_pos hroom⟩
  refine ⟨{ chunk with readIdx := chunk.readIdx - data.length, buf := buf }, ?_, ?_, ?_⟩
  · simp [Chunk.prepend, hbuf]
  · exact ⟨(Nat.sub_le _ _).trans hread, hwrite, (length_of_writeAt hbuf).trans hsize⟩
  · obtain rfl := Option.some.inj ((if_pos hroom).symm.trans hbuf)
    have hfront : (chunk.buf.take (chunk.readIdx - data.length)).length
        = chunk.readIdx - data.length := by
      rw [List.length_take]
      omega
    have hwhole : chunk.readIdx - data.length + data.length = chunk.readIdx := by omega
    have hlen : chunk.writeIdx - (chunk.readIdx - data.length) - data.length
        = chunk.writeIdx - chunk.readIdx := by omega
    simp only [Chunk.data]
    rw [List.drop_take, List.append_assoc, List.drop_left' hfront, List.take_append,
      List.take_of_length_le (by omega), hwhole, hlen, List.drop_take]

theorem WellFormed.prependRest {chunk : Chunk} (h : chunk.WellFormed) {data : Bytes}
    (hfits : data.length ≤ chunk.readIdx) :
    ∃ after, chunk.prependRest data = some after ∧ after.WellFormed ∧
      after.data = data ++ chunk.data := by
  by_cases hzero : data.length = 0
  · refine ⟨chunk, if_pos hzero, h, ?_⟩
    rw [List.eq_nil_of_length_eq_zero hzero, List.nil_append]
  · rw [Chunk.prependRest, if_neg hzero]
    exact h.prepend hfits

end Chunk

namespace Buffer

/-- `tmq_buffer_prepend`. The chunk that its last case allocates is filled at
its end and left without a pointer to it. -/
def tmqBufferPrepend (buffer : Buffer) (data : Bytes) (malloc : Block) : Option Buffer :=
  match buffer.first with
  | none => do
      let chunk ← (bufferChunkNew malloc data.length).append data
      some
        { heap := Function.update buffer.heap malloc.addr (some ⟨none, chunk⟩)
          first := some malloc.addr
          last := some malloc.addr
          readableBytes := buffer.readableBytes + data.length }
  | some first => do
      let cell ← buffer.heap first
      if data.length ≤ cell.value.readIdx then
        let chunk ← cell.value.prepend data
        some { buffer with
          heap := Function.update buffer.heap first (some ⟨cell.next, chunk⟩)
          readableBytes := buffer.readableBytes + data.length }
      else
        let remain := data.length - cell.value.readIdx
        let newChunk := bufferChunkNew malloc remain
        let align := newChunk.chunkSize - remain
        let buf ← writeAt newChunk.buf align (data.take remain)
        let newChunk := { newChunk with readIdx := align, writeIdx := align + remain, buf := buf }
        let data := data.drop remain
        let chunk ← cell.value.prependRest data
        some { buffer with
          heap := Function.update
            (Function.update buffer.heap malloc.addr (some ⟨none, newChunk⟩))
            first (some ⟨cell.next, chunk⟩)
          readableBytes := buffer.readableBytes + data.length }

/-- As `Holds`, but for a chunk without data where it is the only one: that is
what prepending nothing to an empty buffer makes. -/
structure Stores (buffer : Buffer) (cells : List (Addr × Chunk)) : Prop where
  linked : Segment buffer.heap buffer.first cells none
  nodup : (cells.map Prod.fst).Nodup
  owned : ∀ addr, buffer.heap addr ≠ none → addr ∈ cells.map Prod.fst
  last : buffer.last = cells.getLast?.map Prod.fst
  wellFormed : ∀ cell ∈ cells, cell.2.WellFormed
  nonempty : ∀ cell ∈ cells, cell.2.data = [] → cells = [cell]
  readable : buffer.readableBytes = (cells.map fun cell => cell.2.dataLen).sum

theorem Holds.stores {buffer : Buffer} {cells : List (Addr × Chunk)} (h : buffer.Holds cells) :
    buffer.Stores cells where
  linked := h.linked
  nodup := h.nodup
  owned := h.owned
  last := h.last
  wellFormed := h.wellFormed
  nonempty := fun cell hcell hnil => absurd hnil (h.nonempty cell hcell)
  readable := h.readable

/-- The bytes are put before the others, and all are counted. -/
def PrependsData (buffer : Buffer) (cells : List (Addr × Chunk)) (data : Bytes) (malloc : Block) :
    Prop :=
  ∃ after cells', buffer.tmqBufferPrepend data malloc = some after ∧
    Segment after.heap after.first cells' none ∧
    contents cells' = data ++ contents cells ∧
    after.readableBytes = buffer.readableBytes + data.length

section Prepend

variable {buffer : Buffer} {cells : List (Addr × Chunk)}

theorem Stores.length_contents (h : buffer.Stores cells) :
    (contents cells).length = buffer.readableBytes :=
  (Buffer.length_contents h.wellFormed).trans h.readable.symm

/-- A buffer that holds bytes has no chunk without any. -/
theorem Stores.holds (h : buffer.Stores cells) (hcontents : contents cells ≠ []) :
    buffer.Holds cells where
  linked := h.linked
  nodup := h.nodup
  owned := h.owned
  last := h.last
  wellFormed := h.wellFormed
  nonempty := by
    intro cell hcell hnil
    apply hcontents
    rw [h.nonempty cell hcell hnil, contents_cons, hnil]
    rfl
  readable := h.readable

/-- The first chunk, when there is none. -/
theorem Stores.prependFirst (h : buffer.Stores []) (data : Bytes) (malloc : Block) :
    ∃ after chunk, buffer.tmqBufferPrepend data malloc = some after ∧
      after.Stores [(malloc.addr, chunk)] ∧ chunk.data = data := by
  obtain ⟨chunk, hchunk, hwf, hdata⟩ :=
    (bufferChunkNew_wellFormed malloc data.length).append
      (le_writeable_bufferChunkNew malloc data.length)
  rw [data_bufferChunkNew, List.nil_append] at hdata
  have hfirst : buffer.first = none := h.linked
  have hreadable : buffer.readableBytes = 0 := h.readable
  refine ⟨{ heap := Function.update buffer.heap malloc.addr (some ⟨none, chunk⟩)
            first := some malloc.addr
            last := some malloc.addr
            readableBytes := buffer.readableBytes + data.length }, chunk, ?_, ?_, hdata⟩
  · simp [tmqBufferPrepend, hfirst, hchunk]
  · refine ⟨⟨rfl, none, Function.update_self malloc.addr _ buffer.heap, rfl⟩,
      List.nodup_singleton _, ?_, rfl, by simpa using hwf, ?_, ?_⟩
    · intro other hother
      rcases allocated_update hother with rfl | hother
      · simp
      · exact absurd (h.owned other hother) (by simp)
    · intro cell hcell _
      rw [List.mem_singleton.mp hcell]
    · simp [hreadable, ← hwf.length_data, hdata]

variable {cell : Addr × Chunk}

theorem Stores.heap_first (h : buffer.Stores (cell :: cells)) :
    ∃ next, buffer.first = some cell.1 ∧ buffer.heap cell.1 = some ⟨next, cell.2⟩ ∧
      Segment buffer.heap next cells none ∧ cell.1 ∉ cells.map Prod.fst := by
  obtain ⟨hfirst, next, hcell, hrest⟩ := h.linked
  exact ⟨next, hfirst, hcell, hrest, (List.nodup_cons.mp h.nodup).1⟩

/-- What has room before the first chunk's data goes there. -/
theorem Stores.prependInPlace (h : buffer.Stores (cell :: cells)) {data : Bytes}
    (hfits : data.length ≤ cell.2.readIdx) (malloc : Block) :
    ∃ after chunk, buffer.tmqBufferPrepend data malloc = some after ∧
      after.Stores ((cell.1, chunk) :: cells) ∧ chunk.data = data ++ cell.2.data := by
  obtain ⟨next, hfirst, hcell, hrest, hnew⟩ := h.heap_first
  have hwfCell : cell.2.WellFormed := h.wellFormed cell (by simp)
  obtain ⟨chunk, hchunk, hwf, hdata⟩ := hwfCell.prepend hfits
  have hlen : chunk.dataLen = data.length + cell.2.dataLen := by
    rw [← hwf.length_data, ← hwfCell.length_data, hdata, List.length_append]
  refine ⟨{ buffer with
      heap := Function.update buffer.heap cell.1 (some ⟨next, chunk⟩)
      readableBytes := buffer.readableBytes + data.length }, chunk, ?_, ?_, hdata⟩
  · simp [tmqBufferPrepend, hfirst, hcell, hfits, hchunk]
  · refine ⟨?_, h.nodup, ?_, ?_, ?_, ?_, ?_⟩
    · exact ⟨hfirst, next, Function.update_self cell.1 _ buffer.heap,
        segment_update hrest hnew _⟩
    · intro other hother
      rcases allocated_update hother with rfl | hother
      · simp
      · exact h.owned other hother
    · cases cells with
      | nil => exact h.last
      | cons second cells => exact h.last
    · intro other hother
      rcases List.mem_cons.mp hother with rfl | hother
      · exact hwf
      · exact h.wellFormed other (List.mem_cons_of_mem _ hother)
    · intro other hother hnil
      rcases List.mem_cons.mp hother with rfl | hother
      · rw [hdata] at hnil
        have halone := h.nonempty cell (by simp) (List.append_eq_nil_iff.mp hnil).2
        rw [(List.cons.inj halone).2]
      · have halone := h.nonempty other (List.mem_cons_of_mem _ hother) hnil
        rw [(List.cons.inj halone).2] at hother
        exact absurd hother List.not_mem_nil
    · have hreadable := h.readable
      simp only [List.map_cons, List.sum_cons] at hreadable ⊢
      omega

/-- Otherwise only the end of the data gets into the first chunk. The rest is
lost, and not counted. -/
theorem Stores.prependSplit (h : buffer.Stores (cell :: cells)) {data : Bytes}
    (hfits : cell.2.readIdx < data.length) {malloc : Block}
    (hfree : buffer.heap malloc.addr = none) :
    ∃ after cells', buffer.tmqBufferPrepend data malloc = some after ∧
      Segment after.heap after.first cells' none ∧
      contents cells' = data.drop (data.length - cell.2.readIdx) ++ contents (cell :: cells) ∧
      after.readableBytes = buffer.readableBytes + cell.2.readIdx := by
  obtain ⟨next, hfirst, hcell, hrest, hnew⟩ := h.heap_first
  have hwfCell : cell.2.WellFormed := h.wellFormed cell (by simp)
  have hlen : (data.drop (data.length - cell.2.readIdx)).length = cell.2.readIdx := by
    rw [List.length_drop]
    omega
  obtain ⟨chunk, hchunk, -, hdata⟩ := hwfCell.prependRest hlen.le
  have hremain := le_writeable_bufferChunkNew malloc (data.length - cell.2.readIdx)
  have hsize := (bufferChunkNew_wellFormed malloc (data.length - cell.2.readIdx)).size
  obtain ⟨buf, hbuf⟩ : ∃ buf, writeAt (bufferChunkNew malloc (data.length - cell.2.readIdx)).buf
      ((bufferChunkNew malloc (data.length - cell.2.readIdx)).chunkSize
        - (data.length - cell.2.readIdx))
      (data.take (data.length - cell.2.readIdx)) = some buf := by
    refine ⟨_, if_pos ?_⟩
    simp only [Chunk.writeable] at hremain
    rw [hsize, List.length_take]
    omega
  have hother : malloc.addr ∉ cells.map Prod.fst := by
    intro hmem
    exact segment_allocated hrest hmem hfree
  have hprepend : buffer.tmqBufferPrepend data malloc = some
      { buffer with
        heap := Function.update (Function.update buffer.heap malloc.addr (some ⟨none,
            { bufferChunkNew malloc (data.length - cell.2.readIdx) with
              readIdx := (bufferChunkNew malloc (data.length - cell.2.readIdx)).chunkSize
                - (data.length - cell.2.readIdx)
              writeIdx := (bufferChunkNew malloc (data.length - cell.2.readIdx)).chunkSize
                - (data.length - cell.2.readIdx) + (data.length - cell.2.readIdx)
              buf := buf }⟩)) cell.1 (some ⟨next, chunk⟩)
        readableBytes := buffer.readableBytes + cell.2.readIdx } := by
    simp only [tmqBufferPrepend, hfirst, hcell, Option.bind_eq_bind, Option.bind_some,
      hfits.not_ge, if_false, hbuf, hchunk, hlen]
  refine ⟨_, (cell.1, chunk) :: cells, hprepend, ⟨hfirst, next, Function.update_self cell.1 _ _,
    segment_update (segment_update hrest hother _) hnew _⟩, ?_, rfl⟩
  rw [contents_cons, hdata, contents_cons, List.append_assoc]

/-- Prepending obeys the law just when the buffer is empty, or the data has
room before that of the first chunk. -/
theorem Stores.prependsData_iff (h : buffer.Stores cells) (data : Bytes) {malloc : Block}
    (hfree : buffer.heap malloc.addr = none) :
    PrependsData buffer cells data malloc ↔
      ∀ cell ∈ cells.head?, data.length ≤ cell.2.readIdx := by
  cases cells with
  | nil =>
      obtain ⟨after, chunk, hprepend, hafter, hdata⟩ := h.prependFirst data malloc
      have hreadable := hafter.length_contents
      have hbefore : buffer.readableBytes = 0 := h.readable
      refine iff_of_true ⟨after, _, hprepend, hafter.linked, by simp [hdata], ?_⟩ (by simp)
      simpa [hbefore, hdata] using hreadable.symm
  | cons cell cells =>
      simp only [List.head?_cons, Option.mem_some_iff, forall_eq']
      constructor
      · rintro ⟨after, cells', hprepend, -, -, hreadable⟩
        by_contra hfits
        obtain ⟨after', _, hsplit, -, -, hcounted⟩ := h.prependSplit (not_le.mp hfits) hfree
        obtain rfl := Option.some.inj (hprepend.symm.trans hsplit)
        omega
      · intro hfits
        obtain ⟨after, chunk, hprepend, hafter, hdata⟩ := h.prependInPlace hfits malloc
        have hcontents : contents ((cell.1, chunk) :: cells)
            = data ++ contents (cell :: cells) := by
          rw [contents_cons, hdata, contents_cons, List.append_assoc]
        refine ⟨after, _, hprepend, hafter.linked, hcontents, ?_⟩
        rw [← hafter.length_contents, ← h.length_contents, hcontents, List.length_append,
          Nat.add_comm]

end Prepend

/-! ### Words -/

/-- The number that bytes stand for, the highest one first. -/
def beNat (bytes : Bytes) : Nat := Nat.ofDigits 256 (bytes.reverse.map UInt8.toNat)

theorem beNat_lt (bytes : Bytes) : beNat bytes < 256 ^ bytes.length := by
  have hdigits : ∀ d ∈ bytes.reverse.map UInt8.toNat, d < 256 := by
    intro d hd
    obtain ⟨byte, -, rfl⟩ := List.mem_map.mp hd
    exact byte.toNat_lt
  have hlt := Nat.ofDigits_lt_base_pow_length (by decide) hdigits
  rwa [List.length_map, List.length_reverse] at hlt

theorem toNat_beUint16 (msb lsb : UInt8) : (beUint16 msb lsb).toNat = beNat [msb, lsb] := by
  have hmsb := msb.toNat_lt
  have hlsb := lsb.toNat_lt
  simp only [beUint16, UInt16.toNat_ofNat', beNat, List.reverse_cons, List.reverse_nil,
    List.nil_append, List.cons_append, List.map_cons, List.map_nil, Nat.ofDigits_cons,
    Nat.ofDigits_nil]
  omega

/-- `be32toh` of a variable whose four bytes were all copied. -/
def word32 (bytes : Bytes) : Option UInt32 :=
  if bytes.length = 4 then some (UInt32.ofNat (beNat bytes)) else none

/-- `be64toh` of a variable whose eight bytes were all copied. -/
def word64 (bytes : Bytes) : Option UInt64 :=
  if bytes.length = 8 then some (UInt64.ofNat (beNat bytes)) else none

/-- `tmq_buffer_peek32` of a buffer that holds four bytes. -/
def tmqBufferPeek32 (buffer : Buffer) : Option (Buffer × UInt32) := do
  let (buffer, bytes) ← buffer.tmqBufferPeek 4
  let word ← word32 bytes
  some (buffer, word)

/-- `tmq_buffer_peek64` of a buffer that holds eight bytes. -/
def tmqBufferPeek64 (buffer : Buffer) : Option (Buffer × UInt64) := do
  let (buffer, bytes) ← buffer.tmqBufferPeek 8
  let word ← word64 bytes
  some (buffer, word)

/-- `tmq_buffer_read32` of a buffer that holds four bytes: it peeks. -/
def tmqBufferRead32 (buffer : Buffer) : Option (Buffer × UInt32) := do
  let (buffer, bytes) ← buffer.tmqBufferPeek 4
  let word ← word32 bytes
  some (buffer, word)

/-- `tmq_buffer_read64` of a buffer that holds eight bytes: it peeks. -/
def tmqBufferRead64 (buffer : Buffer) : Option (Buffer × UInt64) := do
  let (buffer, bytes) ← buffer.tmqBufferPeek 8
  let word ← word64 bytes
  some (buffer, word)

/-- The wide reads do not differ from the peeks. -/
theorem tmqBufferRead32_eq_peek (buffer : Buffer) :
    buffer.tmqBufferRead32 = buffer.tmqBufferPeek32 := rfl

theorem tmqBufferRead64_eq_peek (buffer : Buffer) :
    buffer.tmqBufferRead64 = buffer.tmqBufferPeek64 := rfl

/-- Where enough bytes are present, their big-endian value is returned and they
are removed. -/
def ReadsWord {α : Type} (size : Nat) (toNat : α → Nat) (read : Buffer → Option (Buffer × α))
    (buffer : Buffer) (cells : List (Addr × Chunk)) : Prop :=
  size ≤ (contents cells).length →
    ∃ after cells' word, read buffer = some (after, word) ∧
      toNat word = beNat ((contents cells).take size) ∧
      Segment after.heap after.first cells' none ∧
      contents cells' = (contents cells).drop size ∧
      after.readableBytes = buffer.readableBytes - size

section Words

variable {buffer : Buffer} {cells : List (Addr × Chunk)}

/-- A word that is peeked has the value of the bytes, which stay. -/
theorem Stores.peekWord {α : Type} (h : buffer.Stores cells) {size : Nat} (hsize : 0 < size)
    (hpresent : size ≤ (contents cells).length) {word : Bytes → Option α} {toNat : α → Nat}
    (hword : ∀ bytes : Bytes, bytes.length = size →
      ∃ value, word bytes = some value ∧ toNat value = beNat bytes) :
    ∃ value,
      (do
        let (buffer, bytes) ← buffer.tmqBufferPeek size
        let value ← word bytes
        some (buffer, value)) = some (buffer, value) ∧
      toNat value = beNat ((contents cells).take size) := by
  have hcontents : contents cells ≠ [] := by
    intro hnil
    rw [hnil] at hpresent
    exact absurd hpresent hsize.not_ge
  obtain ⟨value, hvalue, hnat⟩ := hword _ (List.length_take_of_le hpresent)
  refine ⟨value, ?_, hnat⟩
  simp only [(h.holds hcontents).peek size, Option.bind_eq_bind, Option.bind_some, hvalue]

theorem word32_spec (bytes : Bytes) (hlen : bytes.length = 4) :
    ∃ value, word32 bytes = some value ∧ value.toNat = beNat bytes := by
  have hlt := beNat_lt bytes
  rw [hlen] at hlt
  refine ⟨UInt32.ofNat (beNat bytes), if_pos hlen, ?_⟩
  rw [UInt32.toNat_ofNat']
  exact Nat.mod_eq_of_lt hlt

theorem word64_spec (bytes : Bytes) (hlen : bytes.length = 8) :
    ∃ value, word64 bytes = some value ∧ value.toNat = beNat bytes := by
  have hlt := beNat_lt bytes
  rw [hlen] at hlt
  refine ⟨UInt64.ofNat (beNat bytes), if_pos hlen, ?_⟩
  rw [UInt64.toNat_ofNat']
  exact Nat.mod_eq_of_lt hlt

/-- A read that leaves the buffer as it is obeys the law only where there is
too little to read. -/
theorem Stores.readsWord_iff {α : Type} (h : buffer.Stores cells) {size : Nat} (hsize : 0 < size)
    {toNat : α → Nat} {read : Buffer → Option (Buffer × α)}
    (hread : size ≤ (contents cells).length → ∃ word, read buffer = some (buffer, word)) :
    ReadsWord size toNat read buffer cells ↔ (contents cells).length < size := by
  constructor
  · intro hlaw
    by_contra hpresent
    obtain ⟨word, hsame⟩ := hread (not_lt.mp hpresent)
    obtain ⟨after, cells', word', hword, -, -, -, hreadable⟩ := hlaw (not_lt.mp hpresent)
    obtain ⟨rfl, -⟩ := Prod.mk.inj (Option.some.inj (hsame.symm.trans hword))
    have hlen := h.length_contents
    omega
  · intro hshort hpresent
    exact absurd hpresent hshort.not_ge

theorem Stores.reads32_iff (h : buffer.Stores cells) :
    ReadsWord 4 UInt32.toNat tmqBufferRead32 buffer cells ↔ (contents cells).length < 4 := by
  apply h.readsWord_iff (by decide)
  intro hpresent
  obtain ⟨word, hword, -⟩ := h.peekWord (by decide) hpresent word32_spec
  exact ⟨word, hword⟩

theorem Stores.reads64_iff (h : buffer.Stores cells) :
    ReadsWord 8 UInt64.toNat tmqBufferRead64 buffer cells ↔ (contents cells).length < 8 := by
  apply h.readsWord_iff (by decide)
  intro hpresent
  obtain ⟨word, hword, -⟩ := h.peekWord (by decide) hpresent word64_spec
  exact ⟨word, hword⟩

/-- `tmq_buffer_read16` does what the wide reads leave out. -/
theorem Holds.reads16 (h : buffer.Holds cells) :
    ReadsWord 2 UInt16.toNat tmqBufferRead16 buffer cells := by
  intro hpresent
  rw [h.length_contents] at hpresent
  obtain ⟨msb, lsb, rest, hbytes⟩ := h.twoBytes hpresent
  obtain ⟨after, cells', hread, hafter, hcontents⟩ := h.read 2
  have hreadable : after.readableBytes = buffer.readableBytes - 2 := by
    rw [← hafter.length_contents, hcontents, List.length_drop, h.length_contents]
  refine ⟨after, cells', beUint16 msb lsb, ?_, ?_, hafter.linked, hcontents, hreadable⟩
  · simp [tmqBufferRead16, hread, hbytes, word16]
  · rw [hbytes]
    exact toNat_beUint16 msb lsb

end Words

/-! ### The laws -/

/-- The buffer after the first bytes: one chunk, which starts with them. -/
theorem tmqBufferAppend_first {data : Bytes} (hdata : data ≠ []) (malloc : Block) :
    ∃ buffer chunk, tmqBufferInit.tmqBufferAppend data malloc = some buffer ∧
      buffer.Holds [(malloc.addr, chunk)] ∧ chunk.readIdx = 0 ∧ chunk.data = data ∧
      ∀ addr, addr ≠ malloc.addr → buffer.heap addr = none := by
  obtain ⟨chunk, hchunk, hwf, hsame⟩ :=
    (bufferChunkNew_wellFormed malloc data.length).append
      (le_writeable_bufferChunkNew malloc data.length)
  rw [data_bufferChunkNew, List.nil_append] at hsame
  have hread : chunk.readIdx = 0 := by
    obtain ⟨buf, -, hbuf⟩ := Option.bind_eq_some_iff.mp hchunk
    obtain rfl := Option.some.inj hbuf
    rfl
  have hholds := tmqBufferInit_holds.appendFirst hwf (hsame.symm ▸ hdata) malloc.addr
  refine ⟨_, chunk, ?_, hholds, hread, hsame, ?_⟩
  · have hlen : data.length ≠ 0 := List.length_eq_zero_iff.not.mpr hdata
    have hlast : tmqBufferInit.last = none := rfl
    simp only [tmqBufferAppend, hlen, if_false, hlast, hchunk, Option.bind_eq_bind,
      Option.bind_some, hsame]
  · intro addr hne
    exact Function.update_of_ne hne _ _

/-- What each of the operations needs to obey its law. -/
theorem queueLaws_iff {buffer : Buffer} {cells : List (Addr × Chunk)} (h : buffer.Stores cells)
    (data : Bytes) {malloc : Block} (hfree : buffer.heap malloc.addr = none) :
    (PrependsData buffer cells data malloc ↔
        ∀ cell ∈ cells.head?, data.length ≤ cell.2.readIdx) ∧
      (ReadsWord 4 UInt32.toNat tmqBufferRead32 buffer cells ↔ (contents cells).length < 4) ∧
      (ReadsWord 8 UInt64.toNat tmqBufferRead64 buffer cells ↔ (contents cells).length < 8) :=
  ⟨h.prependsData_iff data hfree, h.reads32_iff, h.reads64_iff⟩

theorem queueLaws_iff_fourBytes :
    ∃ buffer cells, tmqBufferInit.tmqBufferAppend [1, 2, 3, 4] ⟨0, fun _ => 0⟩ = some buffer ∧
      contents cells = [1, 2, 3, 4] ∧
      (PrependsData buffer cells [0] ⟨1, fun _ => 0⟩ ↔
          ∀ cell ∈ cells.head?, [(0 : UInt8)].length ≤ cell.2.readIdx) ∧
        (ReadsWord 4 UInt32.toNat tmqBufferRead32 buffer cells ↔ (contents cells).length < 4) ∧
        (ReadsWord 8 UInt64.toNat tmqBufferRead64 buffer cells ↔ (contents cells).length < 8) := by
  obtain ⟨buffer, chunk, happend, h, -, hdata, hfree⟩ :=
    tmqBufferAppend_first (List.cons_ne_nil 1 [2, 3, 4]) ⟨0, fun _ => 0⟩
  exact ⟨buffer, _, happend, by simp [hdata],
    queueLaws_iff h.stores [0] (hfree 1 (by decide))⟩

/-- Before four bytes that were appended, one byte is lost; and they are not
removed when they are read. -/
theorem not_queueLaws_fourBytes :
    ∃ buffer cells, tmqBufferInit.tmqBufferAppend [1, 2, 3, 4] ⟨0, fun _ => 0⟩ = some buffer ∧
      buffer.Holds cells ∧ contents cells = [1, 2, 3, 4] ∧
      ¬PrependsData buffer cells [0] ⟨1, fun _ => 0⟩ ∧
      ¬ReadsWord 4 UInt32.toNat tmqBufferRead32 buffer cells := by
  obtain ⟨buffer, chunk, happend, h, hread, hdata, hfree⟩ :=
    tmqBufferAppend_first (List.cons_ne_nil 1 [2, 3, 4]) ⟨0, fun _ => 0⟩
  refine ⟨buffer, _, happend, h, by simp [hdata], ?_, ?_⟩
  · rw [h.stores.prependsData_iff [0] (hfree 1 (by decide))]
    simp [hread]
  · rw [h.stores.reads32_iff]
    simp [hdata]

end Buffer

end TinyMqtt
