import TinyMqtt.Net.OutputStream

/-!
How many vectors `tmq_buffer_write_fd` passes to `writev`: one a chunk, and
nothing bounds the number of chunks. It grows by one with every append that
finds no room in the last chunk, and only what is removed makes it smaller.
-/

namespace TinyMqtt

open LinkedList Run

/-- The number of vectors above which `writev` fails with `EINVAL`. -/
def iovMax : Nat := 1024

namespace Buffer

/-- `tmq_buffer_write_fd` passes no more vectors than this to `writev`. -/
def PassesAtMost (buffer : Buffer) (limit : Nat) : Prop :=
  ∃ vecs, iovecs (buffer.readableBytes + 1) buffer.heap buffer.first = some vecs ∧
    vecs.length ≤ limit

/-- The last chunk has room for this much, once it is realigned. -/
def LastTakes (buffer : Buffer) (size : Nat) : Prop :=
  ∃ last cell, buffer.last = some last ∧ buffer.heap last = some cell ∧
    size ≤ cell.value.availSpace

def FewerChunks (buffer : Buffer) (limit : Nat) : Prop :=
  ∃ cells, Segment buffer.heap buffer.first cells none ∧ cells.length < limit

variable {buffer : Buffer} {cells : List (Addr × Chunk)}

theorem Holds.passesAtMost_iff (h : buffer.Holds cells) (limit : Nat) :
    buffer.PassesAtMost limit ↔ cells.length ≤ limit := by
  constructor
  · rintro ⟨vecs, hvecs, hle⟩
    rw [h.iovecs] at hvecs
    obtain rfl := Option.some.inj hvecs
    rwa [List.length_map] at hle
  · intro hle
    refine ⟨_, h.iovecs, ?_⟩
    rwa [List.length_map]

theorem Holds.fewerChunks_iff (h : buffer.Holds cells) (limit : Nat) :
    buffer.FewerChunks limit ↔ cells.length < limit := by
  constructor
  · rintro ⟨others, hlinked, hlt⟩
    rwa [segment_unique h.linked hlinked]
  · intro hlt
    exact ⟨cells, h.linked, hlt⟩

theorem Holds.lastTakes_iff (h : buffer.Holds cells) (size : Nat) :
    buffer.LastTakes size ↔ ∃ last ∈ cells.getLast?, size ≤ last.2.availSpace := by
  cases cells using List.reverseRecOn with
  | nil =>
      have hlast : buffer.last = none := h.last
      simp [LastTakes, hlast]
  | append_singleton cells last =>
      have hlast : buffer.last = some last.1 := by simpa using h.last
      simp [LastTakes, hlast, h.heap_last]

end Buffer

namespace BufferOp

def NeedsChunk (run : Buffer × List BufferResult) : BufferOp → Prop
  | .append data _ => data ≠ [] ∧ ¬ run.1.LastTakes data.length
  | .read _ | .peek _ | .read16 | .peek16 | .remove _ => False

/-- No other chunk is made when there are `IOV_MAX` of them. -/
def KeepsLimit (run : Buffer × List BufferResult) (op : BufferOp) : Prop :=
  op.NeedsChunk run → run.1.FewerChunks iovMax

end BufferOp

section Append

variable {buffer after : Buffer} {cells : List (Addr × Chunk)} {data : Bytes} {malloc : Block}

theorem Buffer.Holds.append_needsChunk (h : buffer.Holds cells)
    (hmalloc : buffer.heap malloc.addr = none) (hdata : data ≠ [])
    (hlast : ¬buffer.LastTakes data.length)
    (happend : buffer.tmqBufferAppend data malloc = some after) :
    ∃ cells', after.Holds cells' ∧ cells'.length = cells.length + 1 := by
  have hfits : ∀ last ∈ cells.getLast?, last.2.availSpace < data.length := by
    intro last hmem
    by_contra hroom
    exact hlast ((h.lastTakes_iff _).mpr ⟨last, hmem, Nat.not_lt.mp hroom⟩)
  have hzero : data.length ≠ 0 := fun hnil => hdata (List.eq_nil_of_length_eq_zero hnil)
  obtain ⟨after', cells', chunk, happend', hafter, hsame, -, -⟩ := h.appendNew hzero hfits hmalloc
  have hlen : cells'.length = cells.length := by simpa using congrArg List.length hsame
  obtain rfl := Option.some.inj (happend'.symm.trans happend)
  refine ⟨_, hafter, ?_⟩
  rw [List.length_append, hlen, List.length_singleton]

theorem Buffer.Holds.append_fits (h : buffer.Holds cells)
    (hfits : data = [] ∨ buffer.LastTakes data.length)
    (happend : buffer.tmqBufferAppend data malloc = some after) :
    ∃ cells', after.Holds cells' ∧ cells'.length = cells.length := by
  by_cases hdata : data = []
  · have hsame : buffer.tmqBufferAppend data malloc = some buffer := if_pos (by simp [hdata])
    obtain rfl := Option.some.inj (hsame.symm.trans happend)
    exact ⟨cells, h, rfl⟩
  · obtain ⟨last, hmem, hroom⟩ := (h.lastTakes_iff _).mp (hfits.resolve_left hdata)
    obtain ⟨cells, rfl⟩ := List.getLast?_eq_some_iff.mp hmem
    have hzero : data.length ≠ 0 := fun hnil => hdata (List.eq_nil_of_length_eq_zero hnil)
    obtain ⟨after', chunk, happend', hafter, -⟩ := h.appendLast hzero hroom malloc
    obtain rfl := Option.some.inj (happend'.symm.trans happend)
    refine ⟨_, hafter, ?_⟩
    simp

end Append

/-- Every call leaves a list of chunks, longer by one just when the call needs
another chunk. -/
theorem bufferStep_chunks {run next : Buffer × List BufferResult} {op : BufferOp}
    {cells : List (Addr × Chunk)} (h : run.1.Holds cells) (hallowed : op.Allowed run)
    (hstep : bufferStep run op = some next) :
    ∃ cells', next.1.Holds cells' ∧
      (op.NeedsChunk run → cells'.length = cells.length + 1) ∧
      (¬ op.NeedsChunk run → cells'.length ≤ cells.length) := by
  obtain ⟨buffer, results⟩ := run
  have hreads : ∀ {size : Nat} {after : Buffer} {bytes : Bytes},
      buffer.tmqBufferRead size = some (after, bytes) →
      ∃ cells', after.Holds cells' ∧ cells'.length ≤ cells.length := by
    intro size after bytes hread
    obtain ⟨after', cells', hread', hafter, -, hsuffix⟩ := h.read_suffix size
    obtain ⟨rfl, -⟩ := Prod.mk.inj (Option.some.inj (hread'.symm.trans hread))
    refine ⟨cells', hafter, ?_⟩
    simpa using hsuffix.length_le
  cases op with
  | append data malloc =>
      obtain ⟨after, happend, rfl⟩ := Option.map_eq_some_iff.mp hstep
      by_cases hneeds : (BufferOp.append data malloc).NeedsChunk (buffer, results)
      · obtain ⟨cells', hafter, hlen⟩ := h.append_needsChunk hallowed hneeds.1 hneeds.2 happend
        exact ⟨cells', hafter, fun _ => hlen, fun hnot => absurd hneeds hnot⟩
      · have hfits : data = [] ∨ buffer.LastTakes data.length := by
          by_contra hnot
          obtain ⟨hdata, hlast⟩ := not_or.mp hnot
          exact hneeds ⟨hdata, hlast⟩
        obtain ⟨cells', hafter, hlen⟩ := h.append_fits hfits happend
        exact ⟨cells', hafter, fun hnot => absurd hnot hneeds, fun _ => hlen.le⟩
  | read size =>
      obtain ⟨⟨after, bytes⟩, hread, rfl⟩ := Option.map_eq_some_iff.mp hstep
      obtain ⟨cells', hafter, hle⟩ := hreads hread
      exact ⟨cells', hafter, False.elim, fun _ => hle⟩
  | peek size =>
      obtain ⟨⟨after, bytes⟩, hpeek, rfl⟩ := Option.map_eq_some_iff.mp hstep
      obtain ⟨rfl, -⟩ := Prod.mk.inj (Option.some.inj ((h.peek size).symm.trans hpeek))
      exact ⟨cells, h, False.elim, fun _ => le_rfl⟩
  | read16 =>
      obtain ⟨⟨after, word⟩, hpair, rfl⟩ := Option.map_eq_some_iff.mp hstep
      obtain ⟨⟨left, bytes⟩, hread, hword⟩ := Option.bind_eq_some_iff.mp hpair
      obtain ⟨value, -, hsame⟩ := Option.bind_eq_some_iff.mp hword
      obtain ⟨rfl, -⟩ := Prod.mk.inj (Option.some.inj hsame)
      obtain ⟨cells', hafter, hle⟩ := hreads hread
      exact ⟨cells', hafter, False.elim, fun _ => hle⟩
  | peek16 =>
      obtain ⟨⟨after, word⟩, hpair, rfl⟩ := Option.map_eq_some_iff.mp hstep
      obtain ⟨⟨left, bytes⟩, hpeek, hword⟩ := Option.bind_eq_some_iff.mp hpair
      obtain ⟨value, -, hsame⟩ := Option.bind_eq_some_iff.mp hword
      obtain ⟨rfl, -⟩ := Prod.mk.inj (Option.some.inj hsame)
      obtain ⟨rfl, -⟩ := Prod.mk.inj (Option.some.inj ((h.peek 2).symm.trans hpeek))
      exact ⟨cells, h, False.elim, fun _ => le_rfl⟩
  | remove size =>
      obtain ⟨after, hremove, rfl⟩ := Option.map_eq_some_iff.mp hstep
      obtain ⟨after', cells', hremove', hafter, -, hsuffix⟩ := h.remove_suffix size
      obtain rfl := Option.some.inj (hremove'.symm.trans hremove)
      refine ⟨cells', hafter, False.elim, fun _ => ?_⟩
      simpa using hsuffix.length_le

/-- Along every sequence of calls, the number of vectors stays within `IOV_MAX`
just when no call needs another chunk while there are `IOV_MAX` of them. -/
theorem passesAtMost_iovMax_iff {ops : List BufferOp}
    (hops : Admissible BufferOp.Allowed bufferStep (Buffer.tmqBufferInit, []) ops) :
    (∀ earlier, earlier <+: ops → ∀ run,
        runs bufferStep (Buffer.tmqBufferInit, []) earlier = some run →
        run.1.PassesAtMost iovMax) ↔
      Admissible BufferOp.KeepsLimit bufferStep (Buffer.tmqBufferInit, []) ops := by
  obtain ⟨final, -, hrun, -⟩ := buffer_refines_queue hops
  have hobserve : ∀ run : Buffer × List BufferResult,
      (∃ cells, run.1.Holds cells ∧ cells.length ≤ iovMax) → run.1.PassesAtMost iovMax := by
    rintro run ⟨cells, h, hle⟩
    exact (h.passesAtMost_iff iovMax).mpr hle
  refine runs_always_iff_of_admissible hobserve ?_ ?_ hops ?_ hrun
  · rintro run op next ⟨cells, h, hle⟩ hallowed hkeeps hstep
    obtain ⟨cells', hnext, hmore, hsame⟩ := bufferStep_chunks h hallowed hstep
    refine ⟨cells', hnext, ?_⟩
    by_cases hneeds : op.NeedsChunk run
    · rw [hmore hneeds]
      exact (h.fewerChunks_iff iovMax).mp (hkeeps hneeds)
    · exact (hsame hneeds).trans hle
  · rintro run op next ⟨cells, h, hle⟩ hallowed hstep hnot hpasses
    obtain ⟨hneeds, hmany⟩ := Classical.not_imp.mp hnot
    obtain ⟨cells', hnext, hmore, -⟩ := bufferStep_chunks h hallowed hstep
    have hlen := (hnext.passesAtMost_iff iovMax).mp hpasses
    rw [hmore hneeds] at hlen
    exact hmany ((h.fewerChunks_iff iovMax).mpr hlen)
  · exact ⟨[], Buffer.tmqBufferInit_holds, Nat.zero_le _⟩

/-! ### A slow reader -/

def smallPacket : Bytes := List.replicate (bufferChunkMin + 1) 0

theorem length_smallPacket : smallPacket.length = bufferChunkMin + 1 := List.length_replicate

/-- Such packets one after the other: none has room in a chunk that holds
another one. -/
def backlog (count : Nat) : List BufferOp :=
  (List.range count).map fun i => .append smallPacket ⟨i, fun _ => 0⟩

theorem backlog_succ (count : Nat) :
    backlog (count + 1) = backlog count ++ [.append smallPacket ⟨count, fun _ => 0⟩] := by
  simp [backlog, List.range_succ]

/-- Each packet of the backlog makes a chunk. -/
theorem runs_backlog (count : Nat) :
    ∃ buffer cells, Admissible BufferOp.Allowed bufferStep (Buffer.tmqBufferInit, [])
        (backlog count) ∧
      runs bufferStep (Buffer.tmqBufferInit, []) (backlog count) = some (buffer, []) ∧
      buffer.Holds cells ∧ cells.length = count ∧ (∀ cell ∈ cells, cell.1 < count) ∧
      ∀ last ∈ cells.getLast?, last.2.chunkSize ≤ smallPacket.length := by
  induction count with
  | zero => exact ⟨_, [], trivial, rfl, Buffer.tmqBufferInit_holds, rfl, by simp, by simp⟩
  | succ count ih =>
      obtain ⟨buffer, cells, hadmissible, hrun, h, hlen, haddrs, hlast⟩ := ih
      have hfree : buffer.heap count = none := by
        by_contra hused
        obtain ⟨cell, hcell, hsame⟩ := List.mem_map.mp (h.owned count hused)
        exact (haddrs cell hcell).ne hsame
      have hfits : ∀ last ∈ cells.getLast?, last.2.availSpace < smallPacket.length := by
        intro last hmem
        have hcell := List.mem_of_mem_getLast? hmem
        have hsize := hlast last hmem
        have hwrite := (h.wellFormed last hcell).write_le
        have hpos := List.length_pos_iff.mpr (h.nonempty last hcell)
        rw [(h.wellFormed last hcell).length_data, Chunk.dataLen] at hpos
        rw [Chunk.availSpace]
        omega
      have hdata : smallPacket.length ≠ 0 := by simp [length_smallPacket]
      obtain ⟨after, cells', chunk, happend, hafter, hsame, -, hsize⟩ :=
        @Buffer.Holds.appendNew _ _ h _ hdata hfits ⟨count, fun _ => 0⟩ hfree
      have hlen' : cells'.length = cells.length := by simpa using congrArg List.length hsame
      rw [backlog_succ]
      refine ⟨after, cells' ++ [(count, chunk)], ?_, ?_, hafter, ?_, ?_, ?_⟩
      · apply admissible_concat hadmissible
        intro run hstate
        rw [hrun] at hstate
        obtain rfl := Option.some.inj hstate
        exact hfree
      · exact runs_concat hrun (by simp [bufferStep, happend])
      · rw [List.length_append, hlen', hlen, List.length_singleton]
      · intro cell hcell
        rcases List.mem_append.mp hcell with hcell | hcell
        · have haddr : cell.1 ∈ cells.map Prod.fst := hsame ▸ List.mem_map_of_mem hcell
          obtain ⟨other, hother, heq⟩ := List.mem_map.mp haddr
          rw [← heq]
          exact Nat.lt_succ_of_lt (haddrs other hother)
        · obtain rfl := List.mem_singleton.mp hcell
          exact Nat.lt_succ_self count
      · intro last hmem
        rw [List.getLast?_concat] at hmem
        obtain rfl := Option.some.inj hmem
        rw [length_smallPacket] at hsize ⊢
        exact hsize.trans (by simp)

/-- Three of them, and a read that takes more than the first one. -/
def partlyRead : List BufferOp := backlog 3 ++ [.remove 600]

theorem passesAtMost_iovMax_iff_partlyRead :
    (∀ earlier, earlier <+: partlyRead → ∀ run,
        runs bufferStep (Buffer.tmqBufferInit, []) earlier = some run →
        run.1.PassesAtMost iovMax) ↔
      Admissible BufferOp.KeepsLimit bufferStep (Buffer.tmqBufferInit, []) partlyRead := by
  obtain ⟨_, _, hadmissible, -⟩ := runs_backlog 3
  exact passesAtMost_iovMax_iff (admissible_concat hadmissible fun _ _ => trivial)

/-- The peer takes nothing: a long enough backlog is more than `writev` takes. -/
theorem exists_run_backlog {count : Nat} (hcount : iovMax < count) :
    Admissible BufferOp.Allowed bufferStep (Buffer.tmqBufferInit, []) (backlog count) ∧ ∃ run,
      runs bufferStep (Buffer.tmqBufferInit, []) (backlog count) = some run ∧
        ¬ run.1.PassesAtMost iovMax := by
  obtain ⟨buffer, cells, hadmissible, hrun, h, hlen, -⟩ := runs_backlog count
  refine ⟨hadmissible, (buffer, []), hrun, ?_⟩
  rw [h.passesAtMost_iff, hlen]
  exact hcount.not_ge

theorem not_passesAtMost_backlog :
    Admissible BufferOp.Allowed bufferStep (Buffer.tmqBufferInit, []) (backlog 1025) ∧ ∃ run,
      runs bufferStep (Buffer.tmqBufferInit, []) (backlog 1025) = some run ∧
        ¬ run.1.PassesAtMost iovMax :=
  exists_run_backlog (Nat.lt_succ_self iovMax)

end TinyMqtt
