import TinyMqtt.Conn.TcpConn
import TinyMqtt.Net.ByteQueue

/-!
The sending side of a connection without SSL. Data is written to the socket
directly while nothing is waiting; what the socket does not take waits in the
output buffer until the socket is writable. Whatever the socket takes each
time, what it took so far and what still waits is what was passed to
`tmq_tcp_conn_write`, in order, as long as the stack holds the frame of
`write_cb_`.
-/

namespace TinyMqtt

open LinkedList Run

/-- How the socket answers `write` and `writev`: it takes what it is given up
to some length, or it fails with `EINTR`, `EAGAIN` or another error. -/
inductive SocketWrite where
  | took (upTo : Nat)
  | eintr
  | eagain
  | failed
  deriving DecidableEq, Repr

/-! ### `tmq_buffer_write_fd` -/

namespace Buffer

/-- The data of every chunk, as the loop of `tmq_buffer_write_fd` collects it. -/
def iovecs : Nat → Heap Chunk → Option Addr → Option (List Bytes)
  | 0, _, _ => none
  | _ + 1, _, none => some []
  | rounds + 1, heap, some addr => do
      let cell ← heap addr
      let iov ← readAt cell.value.buf cell.value.readIdx cell.value.dataLen
      let vecs ← iovecs rounds heap cell.next
      some (iov :: vecs)

/-- `tmq_buffer_write_fd`, with the bytes the socket took; none when `writev`
fails. -/
def tmqBufferWriteFd (buffer : Buffer) (socket : SocketWrite) : Option (Buffer × Option Bytes) := do
  let vecs ← iovecs (buffer.readableBytes + 1) buffer.heap buffer.first
  match socket with
  | .took upTo =>
      let taken := vecs.flatten.take upTo
      let buffer ← buffer.tmqBufferRemove taken.length
      some (buffer, some taken)
  | .eintr | .eagain | .failed => some (buffer, none)

theorem iovecs_eq {heap : Heap Chunk} {start : Option Addr} {cells : List (Addr × Chunk)}
    (hlinked : Segment heap start cells none) (hwf : ∀ cell ∈ cells, cell.2.WellFormed)
    {rounds : Nat} (hrounds : cells.length < rounds) :
    iovecs rounds heap start = some (cells.map fun cell => cell.2.data) := by
  induction cells generalizing start rounds with
  | nil =>
      obtain rfl : start = none := hlinked
      obtain ⟨rounds, rfl⟩ : ∃ n, rounds = n + 1 := ⟨rounds - 1, by simp at hrounds; omega⟩
      rfl
  | cons cell cells ih =>
      obtain ⟨rfl, next, hcell, hrest⟩ := hlinked
      obtain ⟨hwfCell, hwfCells⟩ := List.forall_mem_cons.mp hwf
      rw [List.length_cons] at hrounds
      obtain ⟨rounds, rfl⟩ : ∃ n, rounds = n + 1 := ⟨rounds - 1, by omega⟩
      simp [iovecs, hcell, hwfCell.readAt_data, ih hrest hwfCells (Nat.lt_of_succ_lt_succ hrounds)]

/-- A list of chunks that all hold data is no longer than the data. -/
theorem length_le_length_contents {cells : List (Addr × Chunk)}
    (hnonempty : ∀ cell ∈ cells, cell.2.data ≠ []) : cells.length ≤ (contents cells).length := by
  induction cells with
  | nil => rfl
  | cons cell cells ih =>
      obtain ⟨hcell, hcells⟩ := List.forall_mem_cons.mp hnonempty
      have hpos := List.length_pos_iff.mpr hcell
      have hle := ih hcells
      rw [contents_cons, List.length_append, List.length_cons]
      omega

theorem Holds.iovecs {buffer : Buffer} {cells : List (Addr × Chunk)} (h : buffer.Holds cells) :
    iovecs (buffer.readableBytes + 1) buffer.heap buffer.first
      = some (cells.map fun cell => cell.2.data) := by
  have hlen := length_le_length_contents h.nonempty
  rw [h.length_contents] at hlen
  exact iovecs_eq h.linked h.wellFormed (Nat.lt_succ_of_le hlen)

/-- What the socket takes is the front of the buffer's contents, and the rest
stays. -/
theorem Holds.writeFd {buffer : Buffer} {cells : List (Addr × Chunk)} (h : buffer.Holds cells)
    (upTo : Nat) :
    ∃ after cells', buffer.tmqBufferWriteFd (.took upTo)
        = some (after, some ((contents cells).take upTo)) ∧ after.Holds cells' ∧
      contents cells' = (contents cells).drop upTo := by
  obtain ⟨after, cells', hremove, hafter, hcontents⟩ :=
    h.remove ((contents cells).take upTo).length
  refine ⟨after, cells', ?_, hafter, ?_⟩
  · have hflat : (cells.map fun cell => cell.2.data).flatten = contents cells := rfl
    simp only [tmqBufferWriteFd, h.iovecs, Option.bind_eq_bind, Option.bind_some, hflat, hremove]
  · rw [hcontents, List.length_take, ← List.drop_eq_drop_min]

theorem Holds.writeFd_failed {buffer : Buffer} {cells : List (Addr × Chunk)}
    (h : buffer.Holds cells) {socket : SocketWrite} (hfail : ∀ upTo, socket ≠ .took upTo) :
    buffer.tmqBufferWriteFd socket = some (buffer, none) := by
  cases socket with
  | took upTo => exact absurd rfl (hfail upTo)
  | _ => simp [tmqBufferWriteFd, h.iovecs]

end Buffer

/-! ### The connection -/

/-- The values `on_write_complete` is given, by the client. -/
inductive WriteCompleteCb where
  | onDisconnected (async : Bool)
  | onQos0PublishFinished
  deriving DecidableEq, Repr

/-- `tmq_tcp_conn_t` as far as sending goes, for a connection whose `ssl` is
null. `registered` is whether the loop watches `write_event_handler`; `sent`
and `sendingShut` are what became of the socket. -/
structure OutConn where
  state : TcpConnState
  outBuffer : Buffer
  isWriting : Bool
  registered : Bool
  onWriteComplete : Option WriteCompleteCb
  sent : Bytes
  sendingShut : Bool

/-- `tmq_tcp_conn_new` without SSL. -/
def tmqTcpConnNew : OutConn :=
  ⟨.connected, Buffer.tmqBufferInit, false, false, none, [], false⟩

namespace OutConn

def connClose (conn : OutConn) : OutConn :=
  if conn.state = .disconnected then conn
  else { conn with registered := false, state := .disconnected }

def tmqTcpConnShutdown (conn : OutConn) : OutConn :=
  if conn.state = .disconnected then conn
  else if conn.isWriting then { conn with state := .disconnecting }
  else { conn with sendingShut := true }

/-- `on_write_complete`, if it is set. -/
def writeComplete (conn : OutConn) : OutConn :=
  match conn.onWriteComplete with
  | none => conn
  | some (.onDisconnected async) => if async then conn.tmqTcpConnShutdown else conn
  | some .onQos0PublishFinished => { conn with onWriteComplete := none }

/-- The direct write of `tmq_tcp_conn_write`, with `wrote`; none when the
error is one that closes the connection. -/
def directWrite (conn : OutConn) (data : Bytes) (socket : SocketWrite) : OutConn × Option Nat :=
  if conn.isWriting then (conn, some 0)
  else
    match socket with
    | .took upTo =>
        ({ conn with sent := conn.sent ++ data.take upTo }, some (data.take upTo).length)
    | .eintr | .eagain => (conn, some 0)
    | .failed => (conn, none)

def tmqTcpConnWrite (conn : OutConn) (data : Bytes) (socket : SocketWrite) (malloc : Block) :
    Option OutConn :=
  if conn.state = .disconnected then some conn
  else
    match conn.directWrite data socket with
    | (conn, none) => some conn.connClose
    | (conn, some wrote) =>
        if data.length - wrote = 0 then some conn.writeComplete
        else do
          let outBuffer ← conn.outBuffer.tmqBufferAppend (data.drop wrote) malloc
          let conn := { conn with outBuffer := outBuffer }
          some (if conn.isWriting then conn
            else { conn with registered := true, isWriting := true })

/-- The branch of `write_cb_` for a `writev` that took something. -/
def afterWrite (conn : OutConn) : OutConn :=
  if conn.outBuffer.readableBytes = 0 then
    let conn := { conn with registered := false, isWriting := false }.writeComplete
    if conn.state = .disconnecting then conn.tmqTcpConnShutdown else conn
  else conn

/-- `char buf[INT_MAX]` of `write_cb_`. Only its branch for SSL uses the array,
but the frame that holds it is that of the whole function. -/
def writeCbFrame : Nat := 2147483647

/-- `write_cb_`, called with so much of the stack left. The frame is entered
before the function looks at the connection. A connection without SSL has no
handshake to go on with. -/
def writeCb (conn : OutConn) (stack : Nat) (socket : SocketWrite) : Option OutConn :=
  if stack ≤ writeCbFrame then none
  else if conn.state = .sslHandshaking then none
  else if !conn.isWriting ∨ conn.state = .disconnected then some conn
  else do
    let (outBuffer, taken) ← conn.outBuffer.tmqBufferWriteFd socket
    let conn := { conn with outBuffer := outBuffer, sent := conn.sent ++ taken.getD [] }
    if 0 < (taken.getD []).length then some conn.afterWrite
    else if socket = .eintr then some conn
    else some { conn with isWriting := false }.connClose

/-! ### The bytes in order -/

/-- Until the connection closes, what was sent and what waits in the buffer is
what was passed on. While something waits, and only then, the connection is
writing, and the loop watches for the socket to be writable. -/
structure Streams (conn : OutConn) (passed : Bytes) (cells : List (Addr × Chunk)) : Prop where
  holds : conn.outBuffer.Holds cells
  plain : conn.state ≠ .sslHandshaking
  inOrder : conn.state ≠ .disconnected → conn.sent ++ Buffer.contents cells = passed
  writing : conn.state ≠ .disconnected → (conn.isWriting = true ↔ Buffer.contents cells ≠ [])
  watched : conn.state ≠ .disconnected → conn.registered = conn.isWriting

/-- Nothing changed but the state, and not from or to a closed connection. -/
structure SameStream (before after : OutConn) : Prop where
  outBuffer : after.outBuffer = before.outBuffer
  sent : after.sent = before.sent
  isWriting : after.isWriting = before.isWriting
  registered : after.registered = before.registered
  closed : after.state = .disconnected ↔ before.state = .disconnected
  plain : after.state = .sslHandshaking → before.state = .sslHandshaking

variable {conn : OutConn} {passed : Bytes} {cells : List (Addr × Chunk)}

theorem Streams.congr {after : OutConn} (h : conn.Streams passed cells)
    (hsame : conn.SameStream after) : after.Streams passed cells where
  holds := hsame.outBuffer ▸ h.holds
  plain := fun hstate => h.plain (hsame.plain hstate)
  inOrder := by
    intro hopen
    rw [hsame.sent]
    exact h.inOrder (mt hsame.closed.mpr hopen)
  writing := by
    intro hopen
    rw [hsame.isWriting]
    exact h.writing (mt hsame.closed.mpr hopen)
  watched := by
    intro hopen
    rw [hsame.registered, hsame.isWriting]
    exact h.watched (mt hsame.closed.mpr hopen)

theorem SameStream.refl (conn : OutConn) : conn.SameStream conn :=
  ⟨rfl, rfl, rfl, rfl, Iff.rfl, id⟩

theorem tmqTcpConnShutdown_same (conn : OutConn) : conn.SameStream conn.tmqTcpConnShutdown := by
  by_cases hclosed : conn.state = .disconnected
  · rw [tmqTcpConnShutdown, if_pos hclosed]
    exact SameStream.refl conn
  by_cases hwriting : conn.isWriting = true
  · rw [tmqTcpConnShutdown, if_neg hclosed, if_pos hwriting]
    exact ⟨rfl, rfl, rfl, rfl, by simp [hclosed], by simp⟩
  · rw [tmqTcpConnShutdown, if_neg hclosed, if_neg hwriting]
    exact ⟨rfl, rfl, rfl, rfl, Iff.rfl, id⟩

theorem writeComplete_same (conn : OutConn) : conn.SameStream conn.writeComplete := by
  unfold writeComplete
  split
  · exact SameStream.refl conn
  · split
    · exact tmqTcpConnShutdown_same conn
    · exact SameStream.refl conn
  · exact ⟨rfl, rfl, rfl, rfl, Iff.rfl, id⟩

/-- Nothing is promised of a connection that was closed. -/
theorem Streams.closed (h : conn.outBuffer.Holds cells) (hclosed : conn.state = .disconnected)
    (passed : Bytes) : conn.Streams passed cells where
  holds := h
  plain := by simp [hclosed]
  inOrder := fun hopen => absurd hclosed hopen
  writing := fun hopen => absurd hclosed hopen
  watched := fun hopen => absurd hclosed hopen

theorem connClose_state (conn : OutConn) : conn.connClose.state = .disconnected := by
  unfold connClose
  split
  · assumption
  · rfl

@[simp] theorem connClose_outBuffer (conn : OutConn) :
    conn.connClose.outBuffer = conn.outBuffer := by
  unfold connClose
  split <;> rfl

/-- The direct write passes the buffer by only when nothing waits in it. -/
theorem Streams.directWrite (h : conn.Streams passed cells) (hopen : conn.state ≠ .disconnected)
    {data : Bytes} {socket : SocketWrite} {after : OutConn} {wrote : Nat}
    (hwrite : conn.directWrite data socket = (after, some wrote)) :
    after.Streams (passed ++ data.take wrote) cells ∧ after.outBuffer = conn.outBuffer ∧
      after.state = conn.state := by
  have hnothing : conn.Streams (passed ++ data.take 0) cells := by simpa using h
  unfold OutConn.directWrite at hwrite
  by_cases hwriting : conn.isWriting = true
  · rw [if_pos hwriting] at hwrite
    obtain ⟨rfl, rfl⟩ : conn = after ∧ 0 = wrote := by simpa using hwrite
    exact ⟨hnothing, rfl, rfl⟩
  rw [if_neg hwriting] at hwrite
  cases socket with
  | took upTo =>
      obtain ⟨rfl, rfl⟩ : { conn with sent := conn.sent ++ data.take upTo } = after ∧
          (data.take upTo).length = wrote := by simpa using hwrite
      have hempty : Buffer.contents cells = [] :=
        not_not.mp (mt (h.writing hopen).mpr hwriting)
      have hsent : conn.sent = passed := by simpa [hempty] using h.inOrder hopen
      have htake : data.take (data.take upTo).length = data.take upTo := by
        rw [List.length_take, ← List.take_eq_take_min]
      refine ⟨⟨h.holds, h.plain, ?_, h.writing, h.watched⟩, rfl, rfl⟩
      intro _
      rw [htake, hempty, List.append_nil, hsent]
  | eintr =>
      obtain ⟨rfl, rfl⟩ : conn = after ∧ 0 = wrote := by simpa using hwrite
      exact ⟨hnothing, rfl, rfl⟩
  | eagain =>
      obtain ⟨rfl, rfl⟩ : conn = after ∧ 0 = wrote := by simpa using hwrite
      exact ⟨hnothing, rfl, rfl⟩
  | failed => simp at hwrite

theorem directWrite_outBuffer (conn : OutConn) (data : Bytes) (socket : SocketWrite) :
    (conn.directWrite data socket).1.outBuffer = conn.outBuffer := by
  unfold directWrite
  split
  · rfl
  · split <;> rfl

/-- `tmq_tcp_conn_write`: what the socket does not take goes to the end of the
buffer. -/
theorem Streams.write (h : conn.Streams passed cells) (data : Bytes) (socket : SocketWrite)
    {malloc : Block} (hfree : conn.outBuffer.heap malloc.addr = none) :
    ∃ after cells', conn.tmqTcpConnWrite data socket malloc = some after ∧
      after.Streams (passed ++ data) cells' := by
  by_cases hclosed : conn.state = .disconnected
  · exact ⟨conn, cells, if_pos hclosed, Streams.closed h.holds hclosed _⟩
  have hbuffer := directWrite_outBuffer conn data socket
  rw [tmqTcpConnWrite, if_neg hclosed]
  cases hwrite : conn.directWrite data socket with
  | mk written wrote =>
      rw [hwrite] at hbuffer
      cases wrote with
      | none =>
          refine ⟨written.connClose, cells, rfl, Streams.closed ?_ (connClose_state written) _⟩
          rw [connClose_outBuffer, hbuffer]
          exact h.holds
      | some wrote =>
          obtain ⟨hwritten, -, hstate⟩ := h.directWrite hclosed hwrite
          by_cases hremain : data.length - wrote = 0
          · have hall : data.take wrote = data := List.take_of_length_le (by omega)
            rw [hall] at hwritten
            exact ⟨written.writeComplete, cells, by simp [hremain],
              hwritten.congr (writeComplete_same written)⟩
          have hfree' : written.outBuffer.heap malloc.addr = none := by
            rw [hbuffer]
            exact hfree
          obtain ⟨outBuffer, cells', happend, hholds, hcontents⟩ :=
            hwritten.holds.append (data.drop wrote) hfree'
          have hopen : written.state ≠ .disconnected := hstate ▸ hclosed
          have hnonempty : Buffer.contents cells' ≠ [] := by
            rw [hcontents]
            intro hnil
            rw [List.append_eq_nil_iff, List.drop_eq_nil_iff] at hnil
            omega
          have hinOrder : written.sent ++ Buffer.contents cells' = passed ++ data := by
            rw [hcontents, ← List.append_assoc, hwritten.inOrder hopen, List.append_assoc,
              List.take_append_drop]
          by_cases hwriting : written.isWriting = true
          · refine ⟨{ written with outBuffer := outBuffer }, cells', ?_, hholds, hwritten.plain,
              fun _ => hinOrder, ?_, hwritten.watched⟩
            · simp [hremain, happend, hwriting]
            · intro _
              exact iff_of_true hwriting hnonempty
          · refine ⟨{ written with outBuffer := outBuffer, registered := true, isWriting := true },
              cells', ?_, hholds, hwritten.plain, fun _ => hinOrder, ?_, fun _ => rfl⟩
            · simp [hremain, happend, hwriting]
            · intro _
              exact iff_of_true rfl hnonempty

/-- The last byte taken from the buffer ends the writing, the others do not. -/
theorem Streams.afterWrite (hholds : conn.outBuffer.Holds cells)
    (hplain : conn.state ≠ .sslHandshaking) (hinOrder : conn.sent ++ Buffer.contents cells = passed)
    (hwriting : conn.isWriting = true) (hwatched : conn.registered = conn.isWriting) :
    conn.afterWrite.Streams passed cells := by
  have hlen := hholds.length_contents
  by_cases hempty : conn.outBuffer.readableBytes = 0
  · have hnil : Buffer.contents cells = [] := List.eq_nil_of_length_eq_zero (hlen.trans hempty)
    have hdrained : Streams { conn with registered := false, isWriting := false } passed cells :=
      ⟨hholds, hplain, fun _ => hinOrder, fun _ => by simp [hnil], fun _ => rfl⟩
    have hcompleted := hdrained.congr (writeComplete_same _)
    rw [OutConn.afterWrite, if_pos hempty]
    dsimp only
    split
    · exact hcompleted.congr (tmqTcpConnShutdown_same _)
    · exact hcompleted
  · have hnonempty : Buffer.contents cells ≠ [] := by
      intro hnil
      exact hempty (by rw [← hlen, hnil, List.length_nil])
    rw [OutConn.afterWrite, if_neg hempty]
    exact ⟨hholds, hplain, fun _ => hinOrder, fun _ => iff_of_true hwriting hnonempty,
      fun _ => hwatched⟩

/-- `write_cb_`: what the socket takes leaves the front of the buffer. -/
theorem Streams.writable (h : conn.Streams passed cells) {stack : Nat}
    (hstack : writeCbFrame < stack) (socket : SocketWrite) :
    ∃ after cells', conn.writeCb stack socket = some after ∧ after.Streams passed cells' := by
  by_cases hskip : !conn.isWriting ∨ conn.state = .disconnected
  · refine ⟨conn, cells, ?_, h⟩
    rw [writeCb, if_neg hstack.not_ge, if_neg h.plain, if_pos hskip]
  have hwriting : conn.isWriting = true := by simpa using (not_or.mp hskip).1
  have hopen : conn.state ≠ .disconnected := (not_or.mp hskip).2
  rw [writeCb, if_neg hstack.not_ge, if_neg h.plain, if_neg hskip]
  by_cases htook : ∃ upTo, socket = .took upTo
  · obtain ⟨upTo, rfl⟩ := htook
    obtain ⟨outBuffer, cells', hfd, hholds, hcontents⟩ := h.holds.writeFd upTo
    have hinOrder : conn.sent ++ (Buffer.contents cells).take upTo ++ Buffer.contents cells'
        = passed := by
      rw [hcontents, List.append_assoc, List.take_append_drop, h.inOrder hopen]
    simp only [hfd, Option.bind_eq_bind, Option.bind_some, Option.getD_some]
    by_cases hpos : 0 < ((Buffer.contents cells).take upTo).length
    · rw [if_pos hpos]
      exact ⟨_, cells', rfl,
        Streams.afterWrite hholds h.plain hinOrder hwriting (h.watched hopen)⟩
    · rw [if_neg hpos, if_neg (by simp)]
      refine ⟨_, cells', rfl, Streams.closed ?_ (connClose_state _) _⟩
      rw [connClose_outBuffer]
      exact hholds
  · have hfail : ∀ upTo, socket ≠ .took upTo := fun upTo hsocket => htook ⟨upTo, hsocket⟩
    simp only [h.holds.writeFd_failed hfail, Option.bind_eq_bind, Option.bind_some,
      Option.getD_none, List.append_nil, List.length_nil, Nat.lt_irrefl, if_false]
    by_cases heintr : socket = .eintr
    · rw [if_pos heintr]
      exact ⟨conn, cells, rfl, h⟩
    · rw [if_neg heintr]
      refine ⟨_, cells, rfl, Streams.closed ?_ (connClose_state _) _⟩
      rw [connClose_outBuffer]
      exact h.holds

end OutConn

/-! ### Runs -/

/-- What happens to a connection: the calls of the program, and a writable
event of its socket. -/
inductive OutEvent where
  | write (data : Bytes) (socket : SocketWrite) (malloc : Block)
  | writable (socket : SocketWrite)
  | shutdown
  | forceClose
  | setOnWriteComplete (callback : Option WriteCompleteCb)

/-- `malloc` returns a block that is not in use. -/
def OutEvent.Allowed (run : OutConn × Bytes) : OutEvent → Prop
  | .write _ _ malloc => run.1.outBuffer.heap malloc.addr = none
  | _ => True

instance OutEvent.decidableAllowed (run : OutConn × Bytes) (event : OutEvent) :
    Decidable (event.Allowed run) :=
  match event with
  | .write _ _ malloc => inferInstanceAs (Decidable (run.1.outBuffer.heap malloc.addr = none))
  | .writable _ | .shutdown | .forceClose | .setOnWriteComplete _ =>
      inferInstanceAs (Decidable True)

/-- The event that `write_cb_` is called for. -/
def OutEvent.IsWritable : OutEvent → Prop
  | .writable _ => True
  | _ => False

/-- An event, with all the data passed to `tmq_tcp_conn_write` so far. The loop
calls the handlers with `stack` bytes left on its thread's stack. -/
def outStep (stack : Nat) (run : OutConn × Bytes) : OutEvent → Option (OutConn × Bytes)
  | .write data socket malloc =>
      (run.1.tmqTcpConnWrite data socket malloc).map (·, run.2 ++ data)
  | .writable socket => (run.1.writeCb stack socket).map (·, run.2)
  | .shutdown => some (run.1.tmqTcpConnShutdown, run.2)
  | .forceClose => some (run.1.connClose, run.2)
  | .setOnWriteComplete callback => some ({ run.1 with onWriteComplete := callback }, run.2)

theorem outStep_streams {stack : Nat} {run : OutConn × Bytes} {event : OutEvent}
    (hinv : ∃ cells, run.1.Streams run.2 cells) (hallowed : event.Allowed run)
    (hstack : event.IsWritable → OutConn.writeCbFrame < stack) :
    ∃ next, outStep stack run event = some next ∧ ∃ cells, next.1.Streams next.2 cells := by
  obtain ⟨conn, passed⟩ := run
  obtain ⟨cells, h⟩ := hinv
  cases event with
  | write data socket malloc =>
      obtain ⟨after, cells', hwrite, hafter⟩ := h.write data socket hallowed
      exact ⟨(after, passed ++ data), by simp [outStep, hwrite], cells', hafter⟩
  | writable socket =>
      obtain ⟨after, cells', hwrite, hafter⟩ := h.writable (hstack trivial) socket
      exact ⟨(after, passed), by simp [outStep, hwrite], cells', hafter⟩
  | shutdown => exact ⟨_, rfl, cells, h.congr (OutConn.tmqTcpConnShutdown_same conn)⟩
  | forceClose =>
      refine ⟨_, rfl, cells, OutConn.Streams.closed ?_ (OutConn.connClose_state conn) _⟩
      rw [OutConn.connClose_outBuffer]
      exact h.holds
  | setOnWriteComplete callback =>
      exact ⟨_, rfl, cells, h.congr ⟨rfl, rfl, rfl, rfl, Iff.rfl, id⟩⟩

/-- Where the frame does not fit, no writable event has a result. -/
theorem outStep_writable_none {stack : Nat} (hstack : ¬OutConn.writeCbFrame < stack)
    (run : OutConn × Bytes) {event : OutEvent} (hwritable : event.IsWritable) :
    outStep stack run event = none := by
  cases event with
  | writable socket =>
      have hnone : run.1.writeCb stack socket = none := if_pos (Nat.le_of_not_lt hstack)
      rw [outStep, hnone]
      rfl
  | _ => exact hwritable.elim

/-- The events all have a result. Until the connection closes, the bytes the
socket took followed by those in the buffer are all the data passed to
`tmq_tcp_conn_write`, in order, and the connection is writing just when the
buffer is not empty. -/
def StreamsInOrder (stack : Nat) (events : List OutEvent) : Prop :=
  ∃ final, runs (outStep stack) (tmqTcpConnNew, []) events = some final ∧
    (final.1.state ≠ .disconnected →
      ∃ cells, final.1.outBuffer.Holds cells ∧
        final.1.sent ++ Buffer.contents cells = final.2 ∧
        (final.1.isWriting = true ↔ Buffer.contents cells ≠ []))

/-- The stream is in order just when the stack is larger than the frame of
`write_cb_`, or no writable event is handled. -/
theorem outConn_streams_iff {stack : Nat} {events : List OutEvent}
    (hevents : Admissible OutEvent.Allowed (outStep stack) (tmqTcpConnNew, []) events) :
    StreamsInOrder stack events ↔
      OutConn.writeCbFrame < stack ∨ ∀ event ∈ events, ¬event.IsWritable := by
  constructor
  · rintro ⟨final, hrun, -⟩
    by_contra hneither
    obtain ⟨hstack, hevent⟩ := not_or.mp hneither
    push Not at hevent
    obtain ⟨event, hmem, hwritable⟩ := hevent
    obtain ⟨state, next, hnext⟩ := exists_step_of_mem hrun hmem
    rw [outStep_writable_none hstack state hwritable] at hnext
    cases hnext
  · intro hfits
    have hstack : ∀ event ∈ events, event.IsWritable → OutConn.writeCbFrame < stack := by
      intro event hmem hwritable
      rcases hfits with hlarge | hnone
      · exact hlarge
      · exact absurd hwritable (hnone event hmem)
    have hinit : ∃ cells, OutConn.Streams tmqTcpConnNew [] cells :=
      ⟨[], Buffer.tmqBufferInit_holds, by decide, fun _ => rfl, fun _ => by simp [tmqTcpConnNew],
        fun _ => rfl⟩
    have hstep : ∀ run event, (∃ cells, run.1.Streams run.2 cells) →
        (OutEvent.Allowed run event ∧ (event.IsWritable → OutConn.writeCbFrame < stack)) →
        ∃ next, outStep stack run event = some next ∧ ∃ cells, next.1.Streams next.2 cells :=
      fun run event hinv hknown => outStep_streams hinv hknown.1 hknown.2
    obtain ⟨final, hrun, cells, h⟩ := runs_invariant hstep hinit (hevents.and_forall hstack)
    refine ⟨final, hrun, ?_⟩
    intro hopen
    exact ⟨cells, h.holds, h.inOrder hopen, h.writing hopen⟩

/-- A write the socket takes a part of, one that waits behind it, and a
writable event that takes some of both. -/
def partlyTaken : List OutEvent :=
  [.write [1, 2, 3] (.took 1) ⟨0, fun _ => 0⟩, .write [4] .eagain ⟨1, fun _ => 0⟩,
    .writable (.took 2)]

/-- With 4 GiB of stack. -/
theorem outConn_streams_partly : StreamsInOrder 4294967296 partlyTaken :=
  (@outConn_streams_iff 4294967296 partlyTaken (by decide +kernel)).mpr (Or.inl (by decide))

/-- With the 8 MiB that a thread has by default. -/
theorem not_outConn_streams_default :
    Admissible OutEvent.Allowed (outStep 8388608) (tmqTcpConnNew, []) partlyTaken ∧
      ¬StreamsInOrder 8388608 partlyTaken := by
  refine ⟨by decide +kernel, ?_⟩
  rintro ⟨final, hrun, -⟩
  have hnone : (runs (outStep 8388608) (tmqTcpConnNew, []) partlyTaken).isNone = true := by
    decide +kernel
  rw [hrun] at hnone
  cases hnone

end TinyMqtt
