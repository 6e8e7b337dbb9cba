import TinyMqtt.Net.Buffer

/-!
The byte buffer refines a queue of bytes. A buffer holds a list of chunks, and
its contents are their data one after the other: appending adds at the end,
reading takes from the front, and neither leaves the buffer in another shape.
The operations on the list are those of the decoders' model.
-/

namespace TinyMqtt

open LinkedList Run

namespace Buffer

/-- The bytes held by the chunks of a list. -/
def contents (cells : List (Addr × Chunk)) : Bytes := cells.flatMap fun cell => cell.2.data

@[simp] theorem contents_nil : contents [] = [] := rfl

@[simp] theorem contents_cons (cell : Addr × Chunk) (cells : List (Addr × Chunk)) :
    contents (cell :: cells) = cell.2.data ++ contents cells := rfl

@[simp] theorem contents_append (first second : List (Addr × Chunk)) :
    contents (first ++ second) = contents first ++ contents second :=
  List.flatMap_append

/-- The buffer's chunks are these: a list from `first` to `last` without a
chunk that holds nothing, and no other chunk is allocated. -/
structure Holds (buffer : Buffer) (cells : List (Addr × Chunk)) : Prop where
  linked : Segment buffer.heap buffer.first cells none
  nodup : (cells.map Prod.fst).Nodup
  owned : ∀ addr, buffer.heap addr ≠ none → addr ∈ cells.map Prod.fst
  last : buffer.last = cells.getLast?.map Prod.fst
  wellFormed : ∀ cell ∈ cells, cell.2.WellFormed
  nonempty : ∀ cell ∈ cells, cell.2.data ≠ []
  readable : buffer.readableBytes = (cells.map fun cell => cell.2.dataLen).sum

theorem length_contents {cells : List (Addr × Chunk)}
    (hwf : ∀ cell ∈ cells, cell.2.WellFormed) :
    (contents cells).length = (cells.map fun cell => cell.2.dataLen).sum := by
  induction cells with
  | nil => rfl
  | cons cell cells ih =>
      obtain ⟨hcell, hcells⟩ := List.forall_mem_cons.mp hwf
      rw [contents_cons, List.length_append, hcell.length_data, ih hcells, List.map_cons,
        List.sum_cons]

theorem tmqBufferInit_holds : tmqBufferInit.Holds [] where
  linked := rfl
  nodup := List.nodup_nil
  owned := fun _ h => absurd rfl h
  last := rfl
  wellFormed := by simp
  nonempty := by simp
  readable := rfl

section Holds

variable {buffer : Buffer} {cells : List (Addr × Chunk)}

theorem Holds.length_contents (h : buffer.Holds cells) :
    (contents cells).length = buffer.readableBytes :=
  (Buffer.length_contents h.wellFormed).trans h.readable.symm

theorem Holds.first_eq_none (h : buffer.Holds cells) : buffer.first = none ↔ cells = [] := by
  rw [segment_start h.linked]
  cases cells <;> simp

theorem Holds.last_eq_none (h : buffer.Holds cells) : buffer.last = none ↔ cells = [] := by
  rw [h.last]
  simp

/-! ### Appending -/

/-- The first chunk of a buffer. -/
theorem Holds.appendFirst (h : buffer.Holds []) {chunk : Chunk} (hwf : chunk.WellFormed)
    (hdata : chunk.data ≠ []) (addr : Addr) :
    Holds
      { heap := Function.update buffer.heap addr (some ⟨none, chunk⟩)
        first := some addr
        last := some addr
        readableBytes := buffer.readableBytes + chunk.data.length } [(addr, chunk)] where
  linked := ⟨rfl, none, Function.update_self addr _ buffer.heap, rfl⟩
  nodup := List.nodup_singleton addr
  owned := by
    intro other hother
    rcases allocated_update hother with rfl | hother
    · simp
    · exact absurd (h.owned other hother) (by simp)
  last := rfl
  wellFormed := by simpa using hwf
  nonempty := by simpa using hdata
  readable := by
    have hreadable : buffer.readableBytes = 0 := h.readable
    simp [hreadable, hwf.length_data]

/-- More data in the last chunk. -/
theorem Holds.setLast {last : Addr × Chunk} (h : buffer.Holds (cells ++ [last])) {chunk : Chunk}
    {data : Bytes} (hwf : chunk.WellFormed) (hdata : chunk.data = last.2.data ++ data) :
    Holds
      { buffer with
        heap := Function.update buffer.heap last.1 (some ⟨none, chunk⟩)
        readableBytes := buffer.readableBytes + data.length } (cells ++ [(last.1, chunk)]) := by
  have hlast : last.2.WellFormed := h.wellFormed last (by simp)
  have hlen : chunk.dataLen = last.2.dataLen + data.length := by
    rw [← hwf.length_data, ← hlast.length_data, hdata, List.length_append]
  have haddrs : (cells ++ [(last.1, chunk)]).map Prod.fst = (cells ++ [last]).map Prod.fst := by
    simp
  refine ⟨segment_set_last h.linked h.nodup chunk none, ?_, ?_, ?_, ?_, ?_, ?_⟩
  · rw [haddrs]
    exact h.nodup
  · intro addr haddr
    rw [haddrs]
    rcases allocated_update haddr with rfl | haddr
    · simp
    · exact h.owned addr haddr
  · simpa using h.last
  · intro cell hcell
    rcases List.mem_append.mp hcell with hcell | hcell
    · exact h.wellFormed cell (List.mem_append_left _ hcell)
    · obtain rfl := List.mem_singleton.mp hcell
      exact hwf
  · intro cell hcell
    rcases List.mem_append.mp hcell with hcell | hcell
    · exact h.nonempty cell (List.mem_append_left _ hcell)
    · obtain rfl := List.mem_singleton.mp hcell
      simp [hdata, h.nonempty last (by simp)]
  · have hreadable := h.readable
    simp only [List.map_append, List.map_cons, List.map_nil, List.sum_append, List.sum_cons,
      List.sum_nil, Nat.add_zero] at hreadable ⊢
    omega

/-- A new chunk behind the last one. -/
theorem Holds.link {last : Addr × Chunk} (h : buffer.Holds (cells ++ [last])) {chunk : Chunk}
    (hwf : chunk.WellFormed) (hdata : chunk.data ≠ []) {addr : Addr}
    (hfree : buffer.heap addr = none) :
    Holds
      { buffer with
        heap := Function.update
          (Function.update buffer.heap last.1 (some ⟨some addr, last.2⟩)) addr (some ⟨none, chunk⟩)
        last := some addr
        readableBytes := buffer.readableBytes + chunk.data.length }
      (cells ++ [last] ++ [(addr, chunk)]) := by
  have hnew : addr ∉ (cells ++ [last]).map Prod.fst := fun hmem =>
    segment_allocated h.linked hmem hfree
  have hlinked : Segment (Function.update buffer.heap last.1 (some ⟨some addr, last.2⟩))
      buffer.first (cells ++ [last]) (some addr) :=
    segment_set_last h.linked h.nodup last.2 (some addr)
  refine ⟨?_, ?_, ?_, ?_, ?_, ?_, ?_⟩
  · refine segment_append.mpr ⟨some addr, segment_update hlinked hnew _, rfl, none, ?_, rfl⟩
    exact Function.update_self addr _ _
  · rw [List.map_append, List.nodup_append]
    refine ⟨h.nodup, List.nodup_singleton addr, ?_⟩
    intro other hother addr' haddr' hsame
    obtain rfl : addr' = addr := by simpa using haddr'
    exact hnew (hsame ▸ hother)
  · intro other hother
    rw [List.map_append, List.mem_append]
    rcases allocated_update hother with rfl | hother
    · exact Or.inr (by simp)
    · rcases allocated_update hother with rfl | hother
      · exact Or.inl (by simp)
      · exact Or.inl (h.owned other hother)
  · simp
  · intro cell hcell
    rcases List.mem_append.mp hcell with hcell | hcell
    · exact h.wellFormed cell hcell
    · obtain rfl := List.mem_singleton.mp hcell
      exact hwf
  · intro cell hcell
    rcases List.mem_append.mp hcell with hcell | hcell
    · exact h.nonempty cell hcell
    · obtain rfl := List.mem_singleton.mp hcell
      exact hdata
  · have hreadable := h.readable
    have hlen := hwf.length_data
    simp only [List.map_append, List.map_cons, List.map_nil, List.sum_append, List.sum_cons,
      List.sum_nil, Nat.add_zero] at hreadable ⊢
    omega

theorem Holds.heap_last {last : Addr × Chunk} (h : buffer.Holds (cells ++ [last])) :
    buffer.heap last.1 = some ⟨none, last.2⟩ := by
  obtain ⟨-, -, -, next, hcell, rfl⟩ := segment_append.mp h.linked
  exact hcell

/-- What has room in the last chunk, realigned if need be, goes there. -/
theorem Holds.appendLast {last : Addr × Chunk} (h : buffer.Holds (cells ++ [last])) {data : Bytes}
    (hdata : data.length ≠ 0) (hfits : data.length ≤ last.2.availSpace) (malloc : Block) :
    ∃ after chunk, buffer.tmqBufferAppend data malloc = some after ∧
      after.Holds (cells ++ [(last.1, chunk)]) ∧ chunk.data = last.2.data ++ data := by
  have hlast : buffer.last = some last.1 := by simpa using h.last
  have hwf : last.2.WellFormed := h.wellFormed last (by simp)
  have hcell := h.heap_last
  by_cases hroom : data.length ≤ last.2.writeable
  · obtain ⟨chunk, hchunk, hwf', hdata'⟩ := hwf.append hroom
    refine ⟨_, chunk, ?_, h.setLast hwf' hdata', hdata'⟩
    simp [tmqBufferAppend, hdata, hlast, hcell, hroom, hchunk]
  · obtain ⟨aligned, haligned, hwfAligned, hsame, hspace⟩ := bufferChunkRealign_spec hwf
    have hfits' : data.length ≤ aligned.writeable := hspace.symm ▸ hfits
    obtain ⟨chunk, hchunk, hwf', hdata'⟩ := hwfAligned.append hfits'
    rw [hsame] at hdata'
    refine ⟨_, chunk, ?_, h.setLast hwf' hdata', hdata'⟩
    simp [tmqBufferAppend, hdata, hlast, hcell, hroom, hfits, haligned, hspace, hchunk]

/-- What does not fit behind the last chunk's data goes into a new one. -/
theorem Holds.appendNew (h : buffer.Holds cells) {data : Bytes} (hdata : data.length ≠ 0)
    (hfits : ∀ last ∈ cells.getLast?, last.2.availSpace < data.length) {malloc : Block}
    (hfree : buffer.heap malloc.addr = none) :
    ∃ after cells' chunk, buffer.tmqBufferAppend data malloc = some after ∧
      after.Holds (cells' ++ [(malloc.addr, chunk)]) ∧
      cells'.map Prod.fst = cells.map Prod.fst ∧
      contents (cells' ++ [(malloc.addr, chunk)]) = contents cells ++ data ∧
      chunk.chunkSize ≤ max bufferChunkMin data.length := by
  cases cells using List.reverseRecOn with
  | nil =>
      obtain ⟨chunk, hchunk, hwf, hchunkData⟩ :=
        (bufferChunkNew_wellFormed malloc data.length).append
          (le_writeable_bufferChunkNew malloc data.length)
      rw [data_bufferChunkNew, List.nil_append] at hchunkData
      have hnonempty : chunk.data ≠ [] := by
        rw [hchunkData]
        exact fun hnil => hdata (by simp [hnil])
      have hnext := h.appendFirst hwf hnonempty malloc.addr
      rw [hchunkData] at hnext
      refine ⟨_, [], chunk, ?_, hnext, rfl, ?_, ?_⟩
      · simp [tmqBufferAppend, hdata, h.last, hchunk]
      · simp [hchunkData]
      · rw [Chunk.chunkSize_append hchunk, chunkSize_bufferChunkNew]
  | append_singleton cells last =>
      have hlast : buffer.last = some last.1 := by simpa using h.last
      have hwf : last.2.WellFormed := h.wellFormed last (by simp)
      have hcell := h.heap_last
      have havail : last.2.availSpace < data.length := hfits last (by simp)
      have hroom : last.2.writeable < data.length := hwf.writeable_le_availSpace.trans_lt havail
      have htake : (data.take last.2.writeable).length ≤ last.2.writeable := List.length_take_le _ _
      obtain ⟨chunk, hchunk, hwf', hchunkData⟩ := hwf.append htake
      obtain ⟨newChunk, hnew, hwfNew, hdataNew⟩ :=
        (bufferChunkNew_wellFormed malloc (data.drop last.2.writeable).length).append
          (le_writeable_bufferChunkNew malloc (data.drop last.2.writeable).length)
      rw [data_bufferChunkNew, List.nil_append] at hdataNew
      have hnonempty : newChunk.data ≠ [] := by
        rw [hdataNew]
        intro hnil
        exact hroom.not_ge (List.drop_eq_nil_iff.mp hnil)
      have hne : malloc.addr ≠ last.1 := by
        intro hsame
        rw [hsame, hcell] at hfree
        exact Option.some_ne_none _ hfree
      have hfree' : Function.update buffer.heap last.1 (some ⟨none, chunk⟩) malloc.addr = none := by
        rwa [Function.update_of_ne hne]
      have hnext := (h.setLast hwf' hchunkData).link hwfNew hnonempty hfree'
      simp only [Function.update_idem] at hnext
      have hlen : buffer.readableBytes + (data.take last.2.writeable).length
          + newChunk.data.length = buffer.readableBytes + data.length := by
        rw [hdataNew, Nat.add_assoc, ← List.length_append, List.take_append_drop]
      rw [hlen] at hnext
      refine ⟨_, _, newChunk, ?_, hnext, ?_, ?_, ?_⟩
      · simp only [List.length_drop] at hnew
        simp [tmqBufferAppend, hdata, hlast, hcell, hroom.not_ge, havail.not_ge, hchunk, hnew]
      · simp
      · simp [hchunkData, hdataNew]
      · rw [Chunk.chunkSize_append hnew, chunkSize_bufferChunkNew, List.length_drop]
        omega

/-- `tmq_buffer_append` adds at the end, wherever it finds the room. -/
theorem Holds.append (h : buffer.Holds cells) (data : Bytes) {malloc : Block}
    (hfree : buffer.heap malloc.addr = none) :
    ∃ after cells', buffer.tmqBufferAppend data malloc = some after ∧ after.Holds cells' ∧
      contents cells' = contents cells ++ data := by
  by_cases hzero : data.length = 0
  · refine ⟨buffer, cells, if_pos hzero, h, ?_⟩
    rw [List.eq_nil_of_length_eq_zero hzero, List.append_nil]
  by_cases hfits : ∀ last ∈ cells.getLast?, last.2.availSpace < data.length
  · obtain ⟨after, cells', chunk, happend, hafter, -, hcontents, -⟩ :=
      h.appendNew hzero hfits hfree
    exact ⟨after, _, happend, hafter, hcontents⟩
  · push Not at hfits
    obtain ⟨last, hlast, hfits⟩ := hfits
    obtain ⟨cells, rfl⟩ := List.getLast?_eq_some_iff.mp hlast
    obtain ⟨after, chunk, happend, hafter, hdata⟩ := h.appendLast hzero hfits malloc
    refine ⟨after, _, happend, hafter, ?_⟩
    simp [hdata]

/-! ### Reading -/

/-- The loop goes over the chunks that fit into the size, and stops where one
does not or the list ends. -/
theorem readChunks_spec (remove : Bool) {heap : Heap Chunk} {start : Option Addr}
    (hlinked : Segment heap start cells none) (hnodup : (cells.map Prod.fst).Nodup)
    (hwf : ∀ cell ∈ cells, cell.2.WellFormed) (hnonempty : ∀ cell ∈ cells, cell.2.data ≠ [])
    {rounds size : Nat} (hrounds : size < rounds) (buf : Bytes) :
    ∃ whole rest left, cells = whole ++ rest ∧
      readChunks remove rounds heap start size buf
        = some (if remove then freed heap (whole.map Prod.fst) else heap,
            rest.head?.map Prod.fst, left, buf ++ contents whole) ∧
      (contents whole).length + left = size ∧
      (∀ cell ∈ rest.head?, left < cell.2.dataLen) := by
  induction cells generalizing heap start rounds size buf with
  | nil =>
      obtain rfl : start = none := hlinked
      obtain ⟨rounds, rfl⟩ : ∃ n, rounds = n + 1 := ⟨rounds - 1, by omega⟩
      exact ⟨[], [], size, rfl, by simp [readChunks], Nat.zero_add size, by simp⟩
  | cons cell cells ih =>
      obtain ⟨rfl, next, hcell, hrest⟩ := hlinked
      obtain ⟨rounds, rfl⟩ : ∃ n, rounds = n + 1 := ⟨rounds - 1, by omega⟩
      obtain ⟨hwfCell, hwfCells⟩ := List.forall_mem_cons.mp hwf
      obtain ⟨hdata, hdatas⟩ := List.forall_mem_cons.mp hnonempty
      obtain ⟨hnew, hnodup'⟩ := List.nodup_cons.mp hnodup
      by_cases hfits : cell.2.dataLen ≤ size
      · have hpos : 0 < cell.2.dataLen := by
          rw [← hwfCell.length_data]
          exact List.length_pos_iff.mpr hdata
        have hrest' : Segment (if remove then Function.update heap cell.1 none else heap) next
            cells none := by
          cases remove
          · exact hrest
          · exact segment_update hrest hnew none
        obtain ⟨whole, rest, left, rfl, hloop, hsize, hstop⟩ :=
          @ih _ next hrest' hnodup' hwfCells hdatas rounds (size - cell.2.dataLen) (by omega)
            (buf ++ cell.2.data)
        refine ⟨cell :: whole, rest, left, rfl, ?_, ?_, hstop⟩
        · simp only [readChunks, hcell, Option.bind_eq_bind, Option.bind_some, hfits, if_true,
            hwfCell.readAt_data, hloop]
          cases remove <;> simp [freed_update]
        · rw [contents_cons, List.length_append, hwfCell.length_data]
          omega
      · refine ⟨[], cell :: cells, size, rfl, ?_, Nat.zero_add size, ?_⟩
        · simp [readChunks, hcell, hfits]
        · simpa using Nat.lt_of_not_le hfits

/-- The chunks that are left when a part of the first one is taken too. -/
def advanceFirst (left : Nat) : List (Addr × Chunk) → List (Addr × Chunk)
  | [] => []
  | cell :: cells => (cell.1, cell.2.advance left) :: cells

theorem advanceFirst_fst (left : Nat) (cells : List (Addr × Chunk)) :
    (advanceFirst left cells).map Prod.fst = cells.map Prod.fst := by
  cases cells <;> rfl

theorem advanceFirst_holdsData {left : Nat} (hwf : ∀ cell ∈ cells, cell.2.WellFormed)
    (hnonempty : ∀ cell ∈ cells, cell.2.data ≠ [])
    (hleft : ∀ cell ∈ cells.head?, left < cell.2.dataLen) :
    ∀ cell ∈ advanceFirst left cells, cell.2.WellFormed ∧ cell.2.data ≠ [] := by
  cases cells with
  | nil => simp [advanceFirst]
  | cons first cells =>
      obtain ⟨hwfFirst, hwfCells⟩ := List.forall_mem_cons.mp hwf
      have hlt : left < first.2.dataLen := hleft first (by simp)
      intro cell hcell
      rcases List.mem_cons.mp hcell with rfl | hcell
      · refine ⟨hwfFirst.advance hlt.le, ?_⟩
        rw [Chunk.data_advance, Ne, List.drop_eq_nil_iff, hwfFirst.length_data]
        omega
      · exact ⟨hwfCells cell hcell, hnonempty cell (List.mem_cons_of_mem _ hcell)⟩

theorem contents_advanceFirst {left : Nat} (hwf : ∀ cell ∈ cells, cell.2.WellFormed)
    (hleft : ∀ cell ∈ cells.head?, left < cell.2.dataLen) :
    contents (advanceFirst left cells) = (contents cells).drop left := by
  cases cells with
  | nil => simp [advanceFirst]
  | cons first cells =>
      have hlt : left < first.2.dataLen := hleft first (by simp)
      have hlen := (hwf first (by simp)).length_data
      rw [advanceFirst, contents_cons, contents_cons, Chunk.data_advance,
        List.drop_append_of_le_length (by omega)]

theorem getLast?_advanceFirst (left : Nat) (cells : List (Addr × Chunk)) :
    (advanceFirst left cells).getLast?.map Prod.fst = cells.getLast?.map Prod.fst := by
  rw [← List.getLast?_map, advanceFirst_fst, List.getLast?_map]

/-- What is left of the size is taken from the chunk after the whole ones. -/
theorem readPartly_spec (remove : Bool) {heap : Heap Chunk} {start : Option Addr}
    (hlinked : Segment heap start cells none) (hnodup : (cells.map Prod.fst).Nodup)
    (hwf : ∀ cell ∈ cells, cell.2.WellFormed) {left : Nat}
    (hleft : ∀ cell ∈ cells.head?, left < cell.2.dataLen) (buf : Bytes) :
    ∃ after, readPartly remove heap start left buf
        = some (after, buf ++ (contents cells).take left) ∧
      (remove = true → Segment after start (advanceFirst left cells) none ∧
        ∀ addr, after addr ≠ none → heap addr ≠ none) := by
  cases cells with
  | nil =>
      obtain rfl : start = none := hlinked
      refine ⟨heap, by simp [readPartly], ?_⟩
      intro _
      exact ⟨rfl, fun _ h => h⟩
  | cons cell cells =>
      obtain ⟨rfl, next, hcell, hrest⟩ := hlinked
      by_cases hzero : left = 0
      · subst hzero
        refine ⟨heap, by simp [readPartly], ?_⟩
        intro _
        exact ⟨⟨rfl, next, hcell, hrest⟩, fun _ h => h⟩
      have hwfCell := hwf cell (by simp)
      have hle : left ≤ cell.2.dataLen := (hleft cell (by simp)).le
      have htake : (contents (cell :: cells)).take left = cell.2.data.take left := by
        rw [contents_cons, List.take_append_of_le_length (hwfCell.length_data.symm ▸ hle)]
      refine ⟨if remove then Function.update heap cell.1 (some ⟨next, cell.2.advance left⟩)
        else heap, ?_, ?_⟩
      · rw [htake]
        simp [readPartly, hzero, hcell, hwfCell.readAt hle]
      · rintro rfl
        refine ⟨⟨rfl, next, ?_, ?_⟩, ?_⟩
        · simp
        · exact segment_update hrest (List.nodup_cons.mp hnodup).1 _
        · intro addr haddr
          rcases allocated_update haddr with rfl | haddr
          · simp [hcell]
          · exact haddr

/-- No more is taken than there is. -/
theorem clip_size (size readable : Nat) :
    (if readable < size then readable else size) = min size readable := by
  split <;> omega

theorem Holds.bufferReadInternal_nothing (h : buffer.Holds cells) {size : Nat} (remove : Bool)
    (hnothing : size = 0 ∨ cells = []) :
    buffer.bufferReadInternal size remove = some (buffer, []) := by
  rcases hnothing with rfl | rfl
  · rfl
  · have hfirst : buffer.first = none := h.linked
    simp [bufferReadInternal, hfirst]

/-- A read copies the bytes at the front, as many as there are of those asked
for. When they are to be removed, the chunks that were copied as a whole are
gone, and the one after them lost what was copied of it. -/
theorem Holds.bufferReadInternal (h : buffer.Holds cells) {size : Nat} (remove : Bool)
    (hsize : size ≠ 0) (hcells : cells ≠ []) :
    ∃ heap whole rest left, cells = whole ++ rest ∧
      buffer.bufferReadInternal size remove
        = some (if remove then
            { buffer with
              heap := heap
              first := rest.head?.map Prod.fst
              last := if rest.head?.isNone then none else buffer.last }
          else buffer, (contents cells).take size) ∧
      (contents whole).length + left = min size buffer.readableBytes ∧
      (∀ cell ∈ rest.head?, left < cell.2.dataLen) ∧
      (remove = true →
        Segment heap (rest.head?.map Prod.fst) (advanceFirst left rest) none ∧
          ∀ addr, heap addr ≠ none → addr ∉ whole.map Prod.fst ∧ buffer.heap addr ≠ none) := by
  have hreadable := h.length_contents
  obtain ⟨first, hfirst⟩ := Option.ne_none_iff_exists'.mp fun hnone =>
    hcells (h.first_eq_none.mp hnone)
  obtain ⟨whole, rest, left, rfl, hloop, hcopied, hstop⟩ :=
    readChunks_spec remove h.linked h.nodup h.wellFormed h.nonempty
      (Nat.lt_succ_self (min size buffer.readableBytes)) []
  obtain ⟨middle, -, hrest⟩ := segment_append.mp h.linked
  obtain rfl : middle = rest.head?.map Prod.fst := by
    rw [segment_start hrest, List.head?_eq_getElem?]
  have hnodup := h.nodup
  rw [List.map_append, List.nodup_append] at hnodup
  obtain ⟨-, hnodupRest, hdisjoint⟩ := hnodup
  have hrest' : Segment (if remove then freed buffer.heap (whole.map Prod.fst) else buffer.heap)
      (rest.head?.map Prod.fst) rest none := by
    cases remove
    · exact hrest
    · refine segment_congr hrest ?_
      intro addr haddr
      exact freed_of_notMem fun hmem => hdisjoint addr hmem addr haddr rfl
  obtain ⟨heap, hpartly, hremoved⟩ := readPartly_spec remove hrest' hnodupRest
    (fun cell hcell => h.wellFormed cell (List.mem_append_right _ hcell)) hstop (contents whole)
  have hbytes : contents whole ++ (contents rest).take left
      = (contents (whole ++ rest)).take size := by
    rw [@List.take_eq_take_min _ _ size, hreadable, ← hcopied, contents_append,
      List.take_length_add_append]
  refine ⟨heap, whole, rest, left, rfl, ?_, hcopied, hstop, ?_⟩
  · rw [hfirst, List.nil_append] at hloop
    rw [hbytes] at hpartly
    simp only [Buffer.bufferReadInternal, hsize, if_false, hfirst, clip_size, hloop, hpartly,
      Option.bind_eq_bind, Option.bind_some]
    cases remove <;> simp
  · rintro rfl
    obtain ⟨hlinked, hleft⟩ := hremoved rfl
    exact ⟨hlinked, fun addr haddr => allocated_freed (hleft addr haddr)⟩

/-- Peeking changes nothing. -/
theorem Holds.peek (h : buffer.Holds cells) (size : Nat) :
    buffer.tmqBufferPeek size = some (buffer, (contents cells).take size) := by
  by_cases hnothing : size = 0 ∨ cells = []
  · refine (h.bufferReadInternal_nothing false hnothing).trans ?_
    rcases hnothing with rfl | rfl <;> simp
  · rw [not_or] at hnothing
    obtain ⟨heap, whole, rest, left, -, hread, -⟩ :=
      h.bufferReadInternal false hnothing.1 hnothing.2
    exact hread

/-- Reading takes the bytes at the front, and leaves the last chunks. -/
theorem Holds.read_suffix (h : buffer.Holds cells) (size : Nat) :
    ∃ after cells', buffer.tmqBufferRead size = some (after, (contents cells).take size) ∧
      after.Holds cells' ∧ contents cells' = (contents cells).drop size ∧
      cells'.map Prod.fst <:+ cells.map Prod.fst := by
  by_cases hnothing : size = 0 ∨ cells = []
  · refine ⟨buffer, cells, ?_, h, ?_, List.suffix_rfl⟩
    · rw [tmqBufferRead, h.bufferReadInternal_nothing true hnothing]
      rcases hnothing with rfl | rfl <;> simp
    · rcases hnothing with rfl | rfl <;> simp
  rw [not_or] at hnothing
  obtain ⟨heap, whole, rest, left, rfl, hread, hcopied, hstop, hremoved⟩ :=
    h.bufferReadInternal true hnothing.1 hnothing.2
  obtain ⟨hlinked, hleft⟩ := hremoved rfl
  have hreadable := h.length_contents
  have hwfRest : ∀ cell ∈ rest, cell.2.WellFormed := fun cell hcell =>
    h.wellFormed cell (List.mem_append_right _ hcell)
  have hdata := advanceFirst_holdsData hwfRest
    (fun cell hcell => h.nonempty cell (List.mem_append_right _ hcell)) hstop
  have hcontents : contents (advanceFirst left rest) = (contents (whole ++ rest)).drop size := by
    rw [contents_advanceFirst hwfRest hstop, @List.drop_eq_drop_min _ _ size, hreadable,
      ← hcopied, contents_append, List.drop_length_add_append]
  have hnodup := h.nodup
  rw [List.map_append, List.nodup_append] at hnodup
  refine ⟨{ heap := heap
            first := rest.head?.map Prod.fst
            last := if rest.head?.isNone then none else buffer.last
            readableBytes :=
              buffer.readableBytes - ((contents (whole ++ rest)).take size).length },
    advanceFirst left rest, ?_,
    ⟨hlinked, ?_, ?_, ?_, fun cell hcell => (hdata cell hcell).1,
      fun cell hcell => (hdata cell hcell).2, ?_⟩, hcontents, ?_⟩
  · rw [tmqBufferRead, hread]
    rfl
  · rw [advanceFirst_fst]
    exact hnodup.2.1
  · intro addr haddr
    obtain ⟨hwhole, hallocated⟩ := hleft addr haddr
    have hmem := h.owned addr hallocated
    rw [List.map_append, List.mem_append] at hmem
    rw [advanceFirst_fst]
    exact hmem.resolve_left hwhole
  · rw [getLast?_advanceFirst]
    cases rest with
    | nil => rfl
    | cons cell rest =>
        rw [h.last, List.getLast?_append_of_ne_nil _ (List.cons_ne_nil cell rest)]
        rfl
  · rw [← Buffer.length_contents fun cell hcell => (hdata cell hcell).1, hcontents,
      List.length_drop, List.length_take, ← hreadable]
    dsimp only
    omega
  · rw [advanceFirst_fst, List.map_append]
    exact List.suffix_append _ _

theorem Holds.read (h : buffer.Holds cells) (size : Nat) :
    ∃ after cells', buffer.tmqBufferRead size = some (after, (contents cells).take size) ∧
      after.Holds cells' ∧ contents cells' = (contents cells).drop size := by
  obtain ⟨after, cells', hread, hafter, hcontents, -⟩ := h.read_suffix size
  exact ⟨after, cells', hread, hafter, hcontents⟩

end Holds

theorem Holds.twoBytes {buffer : Buffer} {cells : List (Addr × Chunk)} (h : buffer.Holds cells)
    (hreadable : 2 ≤ buffer.readableBytes) :
    ∃ msb lsb rest, contents cells = msb :: lsb :: rest := by
  rw [← h.length_contents] at hreadable
  match hbytes : contents cells with
  | [] | [_] => simp [hbytes] at hreadable
  | msb :: lsb :: rest => exact ⟨msb, lsb, rest, rfl⟩

/-! ### Removing -/

theorem removeChunks_of_readChunks {rounds size left : Nat} {heap after : Heap Chunk}
    {start stop : Option Addr} {buf bytes : Bytes}
    (h : readChunks true rounds heap start size buf = some (after, stop, left, bytes)) :
    removeChunks rounds heap start size = some (after, stop, left) := by
  induction rounds generalizing heap start size buf with
  | zero => simp [readChunks] at h
  | succ rounds ih =>
      cases start with
      | none =>
          obtain ⟨rfl, rfl, rfl, -⟩ : heap = after ∧ none = stop ∧ size = left ∧ buf = bytes := by
            simpa [readChunks] using h
          rfl
      | some addr =>
          obtain ⟨cell, hcell, h⟩ := Option.bind_eq_some_iff.mp h
          by_cases hfits : cell.value.dataLen ≤ size
          · rw [if_pos hfits] at h
            obtain ⟨copied, -, h⟩ := Option.bind_eq_some_iff.mp h
            simpa [removeChunks, hcell, hfits] using ih h
          · rw [if_neg hfits] at h
            obtain ⟨rfl, rfl, rfl, -⟩ :
                heap = after ∧ some addr = stop ∧ size = left ∧ buf = bytes := by
              simpa using h
            simp [removeChunks, hcell, hfits]

theorem removePartly_of_readPartly {heap after : Heap Chunk} {chunk : Option Addr} {size : Nat}
    {buf bytes : Bytes} (h : readPartly true heap chunk size buf = some (after, bytes)) :
    removePartly heap chunk size = some after := by
  cases chunk with
  | none =>
      obtain ⟨rfl, -⟩ : heap = after ∧ buf = bytes := by simpa [readPartly] using h
      rfl
  | some addr =>
      by_cases hzero : size = 0
      · obtain ⟨rfl, -⟩ : heap = after ∧ buf = bytes := by simpa [readPartly, hzero] using h
        simp [removePartly, hzero]
      · simp only [readPartly, hzero, if_false] at h
        obtain ⟨cell, hcell, h⟩ := Option.bind_eq_some_iff.mp h
        obtain ⟨copied, -, h⟩ := Option.bind_eq_some_iff.mp h
        obtain ⟨rfl, -⟩ : Function.update heap addr (some ⟨cell.next, cell.value.advance size⟩)
            = after ∧ buf ++ copied = bytes := by simpa using h
        simp [removePartly, hzero, hcell]

/-- `tmq_buffer_remove` is `tmq_buffer_read` without the copying. -/
theorem tmqBufferRemove_of_tmqBufferRead {buffer after : Buffer} {size : Nat} {bytes : Bytes}
    (h : buffer.tmqBufferRead size = some (after, bytes))
    (hlen : bytes.length = min size buffer.readableBytes) :
    buffer.tmqBufferRemove size = some after := by
  obtain ⟨⟨left, copied⟩, hread, h⟩ := Option.bind_eq_some_iff.mp h
  obtain ⟨rfl, rfl⟩ : { left with readableBytes := left.readableBytes - copied.length } = after ∧
      copied = bytes := by simpa using h
  by_cases hsize : size = 0
  · obtain ⟨rfl, rfl⟩ : buffer = left ∧ [] = copied := by
      simpa [bufferReadInternal, hsize] using hread
    simp [tmqBufferRemove, hsize]
  simp only [bufferReadInternal, hsize, if_false, clip_size] at hread
  cases hfirst : buffer.first with
  | none =>
      obtain ⟨rfl, rfl⟩ : buffer = left ∧ [] = copied := by simpa [hfirst] using hread
      have hsame : buffer.tmqBufferRemove size = some buffer := by
        simp [tmqBufferRemove, hsize, hfirst]
      exact hsame
  | some first =>
      rw [hfirst] at hread
      obtain ⟨⟨heap, chunk, rest, whole⟩, hloop, hread⟩ := Option.bind_eq_some_iff.mp hread
      obtain ⟨⟨heap', copied'⟩, hpartly, hread⟩ := Option.bind_eq_some_iff.mp hread
      obtain ⟨rfl, rfl⟩ : { buffer with
          heap := heap'
          first := chunk
          last := if chunk.isNone then none else buffer.last } = left ∧ copied' = copied := by
        simpa using hread
      simp only [tmqBufferRemove, hsize, if_false, hfirst, clip_size,
        removeChunks_of_readChunks hloop, removePartly_of_readPartly hpartly, Option.bind_eq_bind, Option.bind_some, hlen]

theorem Holds.remove_suffix {buffer : Buffer} {cells : List (Addr × Chunk)} (h : buffer.Holds cells)
    (size : Nat) :
    ∃ after cells', buffer.tmqBufferRemove size = some after ∧ after.Holds cells' ∧
      contents cells' = (contents cells).drop size ∧
      cells'.map Prod.fst <:+ cells.map Prod.fst := by
  obtain ⟨after, cells', hread, hafter⟩ := h.read_suffix size
  refine ⟨after, cells', tmqBufferRemove_of_tmqBufferRead hread ?_, hafter⟩
  rw [List.length_take, h.length_contents]

theorem Holds.remove {buffer : Buffer} {cells : List (Addr × Chunk)} (h : buffer.Holds cells)
    (size : Nat) :
    ∃ after cells', buffer.tmqBufferRemove size = some after ∧ after.Holds cells' ∧
      contents cells' = (contents cells).drop size := by
  obtain ⟨after, cells', hremove, hafter, hcontents, -⟩ := h.remove_suffix size
  exact ⟨after, cells', hremove, hafter, hcontents⟩

end Buffer

/-! ### Sequences of calls -/

/-- A call, with what `malloc` returns if it needs a chunk. -/
inductive BufferOp where
  | append (data : Bytes) (malloc : Block)
  | read (size : Nat)
  | peek (size : Nat)
  | read16
  | peek16
  | remove (size : Nat)

inductive BufferResult where
  | bytes (bytes : Bytes)
  | word (value : UInt16)
  deriving DecidableEq, Repr

/-- `malloc` returns a block that is not in use, and a word is only read when
two bytes are there. -/
def BufferOp.Allowed (run : Buffer × List BufferResult) : BufferOp → Prop
  | .append _ malloc => run.1.heap malloc.addr = none
  | .read16 | .peek16 => 2 ≤ run.1.readableBytes
  | _ => True

instance BufferOp.decidableAllowed (run : Buffer × List BufferResult) (op : BufferOp) :
    Decidable (op.Allowed run) :=
  match op with
  | .append _ malloc => inferInstanceAs (Decidable (run.1.heap malloc.addr = none))
  | .read16 | .peek16 => inferInstanceAs (Decidable (2 ≤ run.1.readableBytes))
  | .read _ | .peek _ | .remove _ => inferInstanceAs (Decidable True)

def bufferStep (run : Buffer × List BufferResult) : BufferOp → Option (Buffer × List BufferResult)
  | .append data malloc => (run.1.tmqBufferAppend data malloc).map (·, run.2)
  | .read size =>
      (run.1.tmqBufferRead size).map fun (buffer, bytes) => (buffer, run.2 ++ [.bytes bytes])
  | .peek size =>
      (run.1.tmqBufferPeek size).map fun (buffer, bytes) => (buffer, run.2 ++ [.bytes bytes])
  | .read16 => run.1.tmqBufferRead16.map fun (buffer, word) => (buffer, run.2 ++ [.word word])
  | .peek16 => run.1.tmqBufferPeek16.map fun (buffer, word) => (buffer, run.2 ++ [.word word])
  | .remove size => (run.1.tmqBufferRemove size).map (·, run.2)

/-- The same call on a list of bytes, with the operations of the decoders'
model. -/
def queueStep (run : Bytes × List BufferResult) : BufferOp → Bytes × List BufferResult
  | .append data _ => (run.1 ++ data, run.2)
  | .read size =>
      let (bytes, queue) := tmqBufferRead run.1 size
      (queue, run.2 ++ [.bytes bytes])
  | .peek size => (run.1, run.2 ++ [.bytes (tmqBufferRead run.1 size).1])
  | .read16 =>
      let (word, queue) := tmqBufferRead16 run.1
      (queue, run.2 ++ word.toList.map .word)
  | .peek16 => (run.1, run.2 ++ (tmqBufferRead16 run.1).1.toList.map .word)
  | .remove size => (run.1.drop size, run.2)

/-- The buffer holds the bytes of the queue, and the results are the same. -/
def BufferRefines (run : Buffer × List BufferResult) (queue : Bytes × List BufferResult) : Prop :=
  (∃ cells, run.1.Holds cells ∧ Buffer.contents cells = queue.1) ∧ run.2 = queue.2

theorem bufferStep_refines {run : Buffer × List BufferResult} {queue : Bytes × List BufferResult}
    {op : BufferOp} (hrel : BufferRefines run queue) (hallowed : op.Allowed run) :
    ∃ next, bufferStep run op = some next ∧ BufferRefines next (queueStep queue op) := by
  obtain ⟨buffer, results⟩ := run
  obtain ⟨queue, results'⟩ := queue
  obtain ⟨⟨cells, h, hcontents⟩, hsame⟩ := hrel
  obtain rfl : results = results' := hsame
  obtain rfl : Buffer.contents cells = queue := hcontents
  cases op with
  | append data malloc =>
      obtain ⟨after, cells', happend, hafter, hcontents⟩ := h.append data hallowed
      exact ⟨(after, results), by simp [bufferStep, happend], ⟨cells', hafter, hcontents⟩, rfl⟩
  | read size =>
      obtain ⟨after, cells', hread, hafter, hcontents⟩ := h.read size
      exact ⟨_, by simp [bufferStep, hread]; rfl, ⟨cells', hafter, hcontents⟩, rfl⟩
  | peek size =>
      refine ⟨(buffer, results ++ [.bytes ((Buffer.contents cells).take size)]), ?_,
        ⟨cells, h, rfl⟩, rfl⟩
      simp [bufferStep, h.peek size]
  | read16 =>
      obtain ⟨after, cells', hread, hafter, hcontents⟩ := h.read 2
      obtain ⟨msb, lsb, rest, hbytes⟩ := h.twoBytes hallowed
      rw [hbytes] at hread hcontents
      refine ⟨(after, results ++ [.word (beUint16 msb lsb)]), ?_, ?_⟩
      · simp [bufferStep, Buffer.tmqBufferRead16, hread, Buffer.word16]
      · simp only [queueStep, hbytes]
        exact ⟨⟨cells', hafter, hcontents⟩, rfl⟩
  | peek16 =>
      obtain ⟨msb, lsb, rest, hbytes⟩ := h.twoBytes hallowed
      have hpeek := h.peek 2
      rw [hbytes] at hpeek
      refine ⟨(buffer, results ++ [.word (beUint16 msb lsb)]), ?_, ⟨cells, h, rfl⟩, ?_⟩
      · simp [bufferStep, Buffer.tmqBufferPeek16, hpeek, Buffer.word16]
      · simp only [queueStep, hbytes]
        rfl
  | remove size =>
      obtain ⟨after, cells', hremove, hafter, hcontents⟩ := h.remove size
      exact ⟨(after, results), by simp [bufferStep, hremove], ⟨cells', hafter, hcontents⟩, rfl⟩

/-- Every sequence of calls on an initialised buffer does to it, and returns,
what it does to a list of bytes. The buffer stays a list of chunks in order
from `first` to `last`, whose data `readable_bytes` counts. -/
theorem buffer_refines_queue {ops : List BufferOp}
    (hops : Admissible BufferOp.Allowed bufferStep (Buffer.tmqBufferInit, []) ops) :
    ∃ final cells, runs bufferStep (Buffer.tmqBufferInit, []) ops = some final ∧
      final.2 = (ops.foldl queueStep ([], [])).2 ∧
      Buffer.contents cells = (ops.foldl queueStep ([], [])).1 ∧
      final.1.Holds cells ∧
      (final.1.first = none ↔ cells = []) ∧ (final.1.last = none ↔ cells = []) := by
  have hinit : BufferRefines (Buffer.tmqBufferInit, []) ([], []) :=
    ⟨⟨[], Buffer.tmqBufferInit_holds, rfl⟩, rfl⟩
  have hstep : ∀ run queue op, BufferRefines run queue → BufferOp.Allowed run op →
      ∃ next, bufferStep run op = some next ∧ BufferRefines next (queueStep queue op) := by
    intro run queue op hrel hallowed
    exact bufferStep_refines hrel hallowed
  obtain ⟨final, hrun, ⟨cells, h, hcontents⟩, hresults⟩ := runs_simulates hstep hinit hops
  exact ⟨final, cells, hrun, hresults, hcontents, h, h.first_eq_none, h.last_eq_none⟩

/-- Three bytes in a first chunk, a word read from them, and a read that asks
for more than the one that is left. -/
theorem buffer_refines_queue_three : ∃ final cells,
    runs bufferStep (Buffer.tmqBufferInit, [])
        [.append [1, 2, 3] ⟨0, fun _ => 0⟩, .read16, .read 5] = some final ∧
      final.2 = [.word 258, .bytes [3]] ∧ Buffer.contents cells = [] ∧ final.1.Holds cells ∧
      (final.1.first = none ↔ cells = []) ∧ (final.1.last = none ↔ cells = []) :=
  @buffer_refines_queue [.append [1, 2, 3] ⟨0, fun _ => 0⟩, .read16, .read 5] (by decide +kernel)

end TinyMqtt
