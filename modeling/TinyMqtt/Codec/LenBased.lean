import TinyMqtt.Codec.Decode
import TinyMqtt.Lib.Framing

/-!
The length-based codec (`codec/mqtt_codec.c`), under the codecs of the console
and of the cluster. A frame has a type, a payload length of sixteen bits and a
payload; the parser registered for the type is called when the payload is in
the buffer, and takes what it likes from there.
-/

namespace TinyMqtt

open Framing

/-- `length_based_parsing_state`. -/
inductive LenBasedState where
  | parsingHeader | parsingPayload
  deriving DecidableEq, Repr

structure LenBasedParsingCtx where
  state : LenBasedState
  messageType : UInt8
  payloadLen : UInt16
  deriving DecidableEq, Repr

/-- A frame, as it is on the wire and as a parser is called with it. -/
structure LenBasedFrame where
  messageType : UInt8
  payload : Bytes
  deriving DecidableEq, Repr

/-- `payload_parser`: from the context of the connection, its buffer and the
payload length to the context and the buffer afterwards. It has no result where
the source has no defined behaviour. -/
abbrev PayloadParser (σ : Type) := σ → Bytes → Nat → Option (σ × Bytes)

/-- The table `payload_parsers`. A slot without a parser was never written. -/
abbrev PayloadParsers (σ : Type) := List (Option (PayloadParser σ))

variable {σ : Type}

def tmqLenBasedCodecInit : PayloadParsers σ := List.replicate 10 none

/-- `tmq_len_based_codec_register_parser` for a type that has a slot, as all that
are registered do. -/
def tmqLenBasedCodecRegisterParser (parsers : PayloadParsers σ) (messageType : UInt8)
    (parser : PayloadParser σ) : PayloadParsers σ :=
  parsers.set messageType.toNat (some parser)

/-- The parser at `payload_parsers[message_type]`, if one is there. -/
def parserAt (parsers : PayloadParsers σ) (messageType : UInt8) : Option (PayloadParser σ) :=
  parsers[messageType.toNat]?.join

theorem parserAt_init (messageType : UInt8) :
    parserAt (tmqLenBasedCodecInit : PayloadParsers σ) messageType = none := by
  rw [parserAt, tmqLenBasedCodecInit, List.getElem?_replicate]
  split <;> rfl

theorem parserAt_register {parsers : PayloadParsers σ} {registered : UInt8}
    (hslot : registered.toNat < parsers.length) (parser : PayloadParser σ) (messageType : UInt8) :
    parserAt (tmqLenBasedCodecRegisterParser parsers registered parser) messageType
      = if messageType = registered then some parser else parserAt parsers messageType := by
  rw [parserAt, tmqLenBasedCodecRegisterParser]
  by_cases hsame : messageType = registered
  · rw [hsame, if_pos rfl, List.getElem?_set_self hslot]
    rfl
  · have hne : registered.toNat ≠ messageType.toNat := by
      intro h
      exact hsame (UInt8.toNat_inj.mp h.symm)
    rw [if_neg hsame, List.getElem?_set_ne hne]
    rfl

/-- A connection as the codec sees it. `calls` records the dispatches and nothing
reads it. A connection is lost when control went through a slot without a parser
or a parser had no defined behaviour. -/
structure LenBasedConn (σ : Type) where
  ctx : σ
  inBuffer : Bytes
  parsing : LenBasedParsingCtx
  calls : List LenBasedFrame
  lost : Bool

namespace LenBasedConn

/-- A connection before its first byte. The fields of the header are written
before they are read. -/
def new (ctx : σ) : LenBasedConn σ := ⟨ctx, [], ⟨.parsingHeader, 0, 0⟩, [], false⟩

variable (parsers : PayloadParsers σ)

def dispatch (conn : LenBasedConn σ) : Option (σ × Bytes) := do
  let parser ← parserAt parsers conn.parsing.messageType
  parser conn.ctx conn.inBuffer conn.parsing.payloadLen.toNat

/-- The case `PARSING_PAYLOAD` of the decoder's switch, and whether the decoder
goes on after it. -/
def onParsingPayload (conn : LenBasedConn σ) : Bool × LenBasedConn σ :=
  let len := conn.parsing.payloadLen.toNat
  if conn.inBuffer.length < len then (false, conn)
  else
    let calls := conn.calls ++ [⟨conn.parsing.messageType, conn.inBuffer.take len⟩]
    match conn.dispatch parsers with
    | none => (false, { conn with calls := calls, lost := true })
    | some (ctx, buffer) => (true, { conn with
        ctx := ctx
        inBuffer := buffer
        parsing := { conn.parsing with state := .parsingHeader }
        calls := calls })

/-- The case `PARSING_HEADER`, with `parse_header`. -/
def onParsingHeader (conn : LenBasedConn σ) : Bool × LenBasedConn σ :=
  match conn.inBuffer with
  | messageType :: msb :: lsb :: buffer =>
      onParsingPayload parsers { conn with
        inBuffer := buffer
        parsing := ⟨.parsingPayload, messageType, beUint16 msb lsb⟩ }
  | _ => (false, conn)

def decodeRound (conn : LenBasedConn σ) : Bool × LenBasedConn σ :=
  match conn.parsing.state with
  | .parsingHeader => conn.onParsingHeader parsers
  | .parsingPayload => conn.onParsingPayload parsers

/-- The loop of `decode_tcp_message_`. Every round but the first takes a header,
so the length of the buffer bounds the rounds. -/
def decodeLoop : Nat → LenBasedConn σ → Option (LenBasedConn σ)
  | 0, _ => none
  | fuel + 1, conn =>
      let (goesOn, conn) := conn.decodeRound parsers
      if goesOn ∧ conn.inBuffer ≠ [] then decodeLoop fuel conn else some conn

def decodeTcpMessage (conn : LenBasedConn σ) : Option (LenBasedConn σ) :=
  decodeLoop parsers (conn.inBuffer.length + 2) conn

def readCb (conn : LenBasedConn σ) (chunk : Bytes) : Option (LenBasedConn σ) :=
  if conn.lost then some conn
  else decodeTcpMessage parsers { conn with inBuffer := conn.inBuffer ++ chunk }

def feedChunks : LenBasedConn σ → List Bytes → Option (LenBasedConn σ)
  | conn, [] => some conn
  | conn, chunk :: chunks => do
      let conn ← conn.readCb parsers chunk
      feedChunks conn chunks

end LenBasedConn

/-! ### The frames of a stream -/

def takeLenBasedFrame : Bytes → Option (LenBasedFrame × Bytes)
  | messageType :: msb :: lsb :: rest =>
      let len := (beUint16 msb lsb).toNat
      if len ≤ rest.length then some (⟨messageType, rest.take len⟩, rest.drop len) else none
  | _ => none

theorem takeLenBasedFrame_eq_some_iff {s rest : Bytes} {f : LenBasedFrame} :
    takeLenBasedFrame s = some (f, rest) ↔ ∃ msb lsb,
      s = f.messageType :: msb :: lsb :: (f.payload ++ rest) ∧
        (beUint16 msb lsb).toNat = f.payload.length := by
  constructor
  · intro h
    match s with
    | [] => cases h
    | [_] => cases h
    | [_, _] => cases h
    | messageType :: msb :: lsb :: tail =>
        rw [takeLenBasedFrame] at h
        split at h
        · rename_i hle
          obtain ⟨rfl, rfl⟩ := Prod.mk.inj (Option.some.inj h)
          refine ⟨msb, lsb, ?_, ?_⟩
          · rw [List.take_append_drop]
          · rw [List.length_take, min_eq_left hle]
        · cases h
  · rintro ⟨msb, lsb, rfl, hlen⟩
    rw [takeLenBasedFrame]
    simp [hlen]

def lenBasedFramer : Framer UInt8 LenBasedFrame where
  take := takeLenBasedFrame
  stable := by
    intro s rest f h more
    obtain ⟨msb, lsb, rfl, hlen⟩ := takeLenBasedFrame_eq_some_iff.mp h
    exact takeLenBasedFrame_eq_some_iff.mpr ⟨msb, lsb, by simp, hlen⟩
  shrinks := by
    intro s rest f h
    obtain ⟨msb, lsb, rfl, -⟩ := takeLenBasedFrame_eq_some_iff.mp h
    simp only [List.length_cons, List.length_append]
    omega

/-- What of an incomplete frame stays in the buffer: a whole header is taken. -/
def withoutHeader (s : Bytes) : Bytes := if s.length < 3 then s else s.drop 3

namespace LenBasedFrame

/-- The parser of the frame's type takes the payload and nothing else. -/
def Consumed (f : LenBasedFrame) (parsers : PayloadParsers σ) : Prop :=
  ∃ parser, parserAt parsers f.messageType = some parser ∧ ∀ ctx rest, ∃ ctx',
    parser ctx (f.payload ++ rest) f.payload.length = some (ctx', rest)

/-- The type has no parser, or it has no defined behaviour on the payload. -/
def Fatal (f : LenBasedFrame) (parsers : PayloadParsers σ) : Prop :=
  ∀ ctx rest, (parserAt parsers f.messageType).bind
    (fun parser => parser ctx (f.payload ++ rest) f.payload.length) = none

theorem Consumed.not_fatal {f : LenBasedFrame} {parsers : PayloadParsers σ}
    (h : f.Consumed parsers) (ctx : σ) : ¬f.Fatal parsers := by
  intro hfatal
  obtain ⟨parser, hparser, htakes⟩ := h
  obtain ⟨ctx', htaken⟩ := htakes ctx []
  have hnone := hfatal ctx []
  rw [hparser, Option.bind_some, htaken] at hnone
  cases hnone

end LenBasedFrame

/-! ### Decoding -/

namespace LenBasedConn

variable {parsers : PayloadParsers σ}

/-- The bytes that the connection has of frames not yet handled, the taken
header among them. -/
inductive Holds (conn : LenBasedConn σ) : Bytes → Prop
  | header : conn.parsing.state = .parsingHeader → Holds conn conn.inBuffer
  | payload {messageType msb lsb : UInt8} :
      conn.parsing = ⟨.parsingPayload, messageType, beUint16 msb lsb⟩ →
      Holds conn (messageType :: msb :: lsb :: conn.inBuffer)

theorem Holds.receive {conn : LenBasedConn σ} {s : Bytes} (h : conn.Holds s) (chunk : Bytes) :
    ({ conn with inBuffer := conn.inBuffer ++ chunk } : LenBasedConn σ).Holds (s ++ chunk) := by
  cases h with
  | header hstate => exact .header hstate
  | payload hparsing => exact .payload hparsing

/-- The case `PARSING_PAYLOAD` before the payload is there. -/
theorem onParsingPayload_of_lt {conn : LenBasedConn σ}
    (hshort : conn.inBuffer.length < conn.parsing.payloadLen.toNat) :
    conn.onParsingPayload parsers = (false, conn) := if_pos hshort

/-- The case `PARSING_PAYLOAD` on a whole frame. -/
theorem onParsingPayload_frame (conn : LenBasedConn σ) {f : LenBasedFrame} {msb lsb : UInt8}
    (hlen : (beUint16 msb lsb).toNat = f.payload.length) (rest : Bytes) :
    onParsingPayload parsers { conn with
        inBuffer := f.payload ++ rest
        parsing := ⟨.parsingPayload, f.messageType, beUint16 msb lsb⟩ }
      = match (parserAt parsers f.messageType).bind
          (fun parser => parser conn.ctx (f.payload ++ rest) f.payload.length) with
        | none => (false, { conn with
            inBuffer := f.payload ++ rest
            parsing := ⟨.parsingPayload, f.messageType, beUint16 msb lsb⟩
            calls := conn.calls ++ [f]
            lost := true })
        | some (ctx, buffer) => (true, { conn with
            ctx := ctx
            inBuffer := buffer
            parsing := ⟨.parsingHeader, f.messageType, beUint16 msb lsb⟩
            calls := conn.calls ++ [f] }) := by
  have hwhole : ¬(f.payload ++ rest).length < f.payload.length := by
    rw [List.length_append]
    omega
  have htaken : (f.payload ++ rest).take f.payload.length = f.payload := List.take_left
  simp only [onParsingPayload, dispatch, hlen, hwhole, if_false, htaken]
  rfl

/-- A round on a whole frame is the case `PARSING_PAYLOAD` on it. -/
theorem Holds.round_frame {conn : LenBasedConn σ} {s rest : Bytes} {f : LenBasedFrame}
    (h : conn.Holds s) (parsers : PayloadParsers σ) (htake : takeLenBasedFrame s = some (f, rest)) :
    ∃ msb lsb, (beUint16 msb lsb).toNat = f.payload.length ∧
      conn.decodeRound parsers = onParsingPayload parsers { conn with
        inBuffer := f.payload ++ rest
        parsing := ⟨.parsingPayload, f.messageType, beUint16 msb lsb⟩ } := by
  obtain ⟨msb, lsb, hs, hlen⟩ := takeLenBasedFrame_eq_some_iff.mp htake
  refine ⟨msb, lsb, hlen, ?_⟩
  cases h with
  | header hstate => rw [decodeRound, hstate, onParsingHeader, hs]
  | payload hparsing =>
      simp only [List.cons.injEq] at hs
      obtain ⟨rfl, rfl, rfl, hbuffer⟩ := hs
      have hround : conn.decodeRound parsers = conn.onParsingPayload parsers := by
        rw [decodeRound, hparsing]
      rw [hround, ← hbuffer, ← hparsing]

/-- A round that finds no whole frame takes a whole header and waits. -/
theorem Holds.round_wait {conn : LenBasedConn σ} {s : Bytes} (h : conn.Holds s)
    (parsers : PayloadParsers σ) (htake : takeLenBasedFrame s = none) :
    ∃ next, conn.decodeRound parsers = (false, next) ∧ next.Holds s ∧
      next.inBuffer = withoutHeader s ∧ next.calls = conn.calls ∧ next.lost = conn.lost := by
  cases h with
  | header hstate =>
      rw [decodeRound, hstate, onParsingHeader]
      match hbuffer : conn.inBuffer with
      | [] => exact ⟨conn, rfl, hbuffer ▸ .header hstate, hbuffer, rfl, rfl⟩
      | [a] => exact ⟨conn, rfl, hbuffer ▸ .header hstate, hbuffer, rfl, rfl⟩
      | [a, b] => exact ⟨conn, rfl, hbuffer ▸ .header hstate, hbuffer, rfl, rfl⟩
      | messageType :: msb :: lsb :: rest =>
          rw [hbuffer, takeLenBasedFrame] at htake
          have hshort : rest.length < (beUint16 msb lsb).toNat := by
            by_contra hle
            simp only [Nat.not_lt.mp hle, if_true] at htake
            cases htake
          refine ⟨_, onParsingPayload_of_lt hshort, .payload rfl, ?_, rfl, rfl⟩
          simp [withoutHeader]
  | @payload messageType msb lsb hparsing =>
      rw [takeLenBasedFrame] at htake
      have hshort : conn.inBuffer.length < conn.parsing.payloadLen.toNat := by
        rw [hparsing]
        by_contra hle
        simp only [Nat.not_lt.mp hle, if_true] at htake
        cases htake
      have hround : conn.decodeRound parsers = (false, conn) := by
        rw [decodeRound, hparsing]
        exact onParsingPayload_of_lt hshort
      refine ⟨conn, hround, .payload hparsing, ?_, rfl, rfl⟩
      simp [withoutHeader]

theorem onParsingPayload_keeps {conn : LenBasedConn σ}
    (hgoesOn : (conn.onParsingPayload parsers).1 = true) :
    (conn.onParsingPayload parsers).2.lost = conn.lost := by
  by_cases hshort : conn.inBuffer.length < conn.parsing.payloadLen.toNat
  · rw [onParsingPayload_of_lt hshort]
  · simp only [onParsingPayload, hshort, if_false] at hgoesOn ⊢
    cases hdispatch : conn.dispatch parsers with
    | none => simp [hdispatch] at hgoesOn
    | some done => rfl

/-- A round after which the decoder goes on has not lost the connection. -/
theorem decodeRound_keeps {conn : LenBasedConn σ}
    (hgoesOn : (conn.decodeRound parsers).1 = true) :
    (conn.decodeRound parsers).2.lost = conn.lost := by
  rw [decodeRound] at hgoesOn ⊢
  cases hstate : conn.parsing.state with
  | parsingPayload =>
      rw [hstate] at hgoesOn
      exact onParsingPayload_keeps hgoesOn
  | parsingHeader =>
      simp only [hstate, onParsingHeader] at hgoesOn ⊢
      split at hgoesOn
      · exact onParsingPayload_keeps hgoesOn
      · cases hgoesOn

theorem Holds.round_consumed {conn : LenBasedConn σ} {s rest : Bytes} {f : LenBasedFrame}
    (h : conn.Holds s) (htake : takeLenBasedFrame s = some (f, rest))
    (hconsumed : f.Consumed parsers) :
    ∃ next, conn.decodeRound parsers = (true, next) ∧
      next.parsing.state = .parsingHeader ∧ next.inBuffer = rest ∧
      next.calls = conn.calls ++ [f] ∧ next.lost = conn.lost := by
  obtain ⟨msb, lsb, hlen, hround⟩ := h.round_frame parsers htake
  obtain ⟨parser, hparser, htakes⟩ := hconsumed
  obtain ⟨ctx', htaken⟩ := htakes conn.ctx rest
  rw [hround, onParsingPayload_frame conn hlen rest, hparser, Option.bind_some, htaken]
  exact ⟨_, rfl, rfl, rfl, rfl, rfl⟩

theorem Holds.round_fatal {conn : LenBasedConn σ} {s rest : Bytes} {f : LenBasedFrame}
    (h : conn.Holds s) (htake : takeLenBasedFrame s = some (f, rest))
    (hfatal : f.Fatal parsers) :
    ∃ next, conn.decodeRound parsers = (false, next) ∧ next.calls = conn.calls ++ [f] ∧
      next.lost = true := by
  obtain ⟨msb, lsb, hlen, hround⟩ := h.round_frame parsers htake
  rw [hround, onParsingPayload_frame conn hlen rest, hfatal conn.ctx rest]
  exact ⟨_, rfl, rfl, rfl⟩

/-- The calls made for some frames: one for each, or for those up to the first
that is fatal. -/
inductive Handled (parsers : PayloadParsers σ) :
    List LenBasedFrame → List LenBasedFrame → Bool → Prop
  | all {frames : List LenBasedFrame} : (∀ f ∈ frames, f.Consumed parsers) →
      Handled parsers frames frames false
  | upTo {good later : List LenBasedFrame} {bad : LenBasedFrame} :
      (∀ f ∈ good, f.Consumed parsers) → bad.Fatal parsers →
      Handled parsers (good ++ bad :: later) (good ++ [bad]) true

theorem Handled.cons {frames made : List LenBasedFrame} {lost : Bool} {f : LenBasedFrame}
    (h : Handled parsers frames made lost) (hf : f.Consumed parsers) :
    Handled parsers (f :: frames) (f :: made) lost := by
  cases h with
  | all hall => exact .all (List.forall_mem_cons.mpr ⟨hf, hall⟩)
  | upTo hgood hbad => exact .upTo (List.forall_mem_cons.mpr ⟨hf, hgood⟩) hbad

theorem Handled.append {first firstMade frames made : List LenBasedFrame} {lost : Bool}
    (h : Handled parsers frames made lost) (hfirst : Handled parsers first firstMade false) :
    Handled parsers (first ++ frames) (firstMade ++ made) lost := by
  cases hfirst with
  | all hall =>
      induction first with
      | nil => exact h
      | cons f first ih =>
          obtain ⟨hf, hrest⟩ := List.forall_mem_cons.mp hall
          exact (ih hrest).cons hf

/-- After a decoder call: the frames of what the connection held are handled, and
unless the connection is lost it holds what is left. -/
structure Decoded (parsers : PayloadParsers σ) (conn : LenBasedConn σ) (s : Bytes)
    (next : LenBasedConn σ) : Prop where
  handled : ∃ made, next.calls = conn.calls ++ made ∧
    Handled parsers (lenBasedFramer.split s).1 made next.lost
  holds : next.lost = false → next.Holds (lenBasedFramer.split s).2 ∧
    next.inBuffer = withoutHeader (lenBasedFramer.split s).2

theorem Decoded.refl {conn : LenBasedConn σ} {s : Bytes} (h : conn.Holds s)
    (htake : takeLenBasedFrame s = none) (hbuffer : conn.inBuffer = withoutHeader s)
    (hlost : conn.lost = false) : Decoded parsers conn s conn := by
  have hsplit : lenBasedFramer.split s = ([], s) := Framer.split_of_none htake
  refine ⟨⟨[], (List.append_nil _).symm, ?_⟩, ?_⟩
  · rw [hsplit, hlost]
    exact .all (List.forall_mem_nil _)
  · intro _
    rw [hsplit]
    exact ⟨h, hbuffer⟩

theorem Decoded.congr {conn conn' next : LenBasedConn σ} {s : Bytes}
    (h : Decoded parsers conn s next) (hcalls : conn.calls = conn'.calls) :
    Decoded parsers conn' s next := by
  obtain ⟨made, hmade, hhandled⟩ := h.handled
  exact ⟨⟨made, hcalls ▸ hmade, hhandled⟩, h.holds⟩

/-- A frame that its parser takes, and what the decoder does with the rest. -/
theorem Decoded.cons {conn middle last : LenBasedConn σ} {s rest : Bytes} {f : LenBasedFrame}
    (htake : takeLenBasedFrame s = some (f, rest)) (hconsumed : f.Consumed parsers)
    (hcalls : middle.calls = conn.calls ++ [f]) (h : Decoded parsers middle rest last) :
    Decoded parsers conn s last := by
  have hsplit : lenBasedFramer.split s
      = (f :: (lenBasedFramer.split rest).1, (lenBasedFramer.split rest).2) :=
    Framer.split_of_some htake
  obtain ⟨made, hmade, hhandled⟩ := h.handled
  refine ⟨⟨f :: made, ?_, ?_⟩, ?_⟩
  · rw [hmade, hcalls, List.append_assoc]
    rfl
  · rw [hsplit]
    exact hhandled.cons hconsumed
  · rw [hsplit]
    exact h.holds

/-- A fatal frame is the last one handled. -/
theorem Decoded.fatal {conn next : LenBasedConn σ} {s rest : Bytes} {f : LenBasedFrame}
    (htake : takeLenBasedFrame s = some (f, rest)) (hfatal : f.Fatal parsers)
    (hcalls : next.calls = conn.calls ++ [f]) (hlost : next.lost = true) :
    Decoded parsers conn s next := by
  have hsplit : lenBasedFramer.split s
      = (f :: (lenBasedFramer.split rest).1, (lenBasedFramer.split rest).2) :=
    Framer.split_of_some htake
  refine ⟨⟨[f], hcalls, ?_⟩, ?_⟩
  · have hnone : ∀ f ∈ ([] : List LenBasedFrame), f.Consumed parsers := List.forall_mem_nil _
    rw [hsplit, hlost]
    exact .upTo hnone hfatal
  · intro hkept
    rw [hlost] at hkept
    cases hkept

theorem decodeLoop_stop {fuel : Nat} {conn next : LenBasedConn σ} {goesOn : Bool}
    (hround : conn.decodeRound parsers = (goesOn, next))
    (hstop : ¬(goesOn = true ∧ next.inBuffer ≠ [])) :
    conn.decodeLoop parsers (fuel + 1) = some next := by
  rw [decodeLoop, hround]
  exact if_neg hstop

theorem decodeLoop_decoded {fuel : Nat} {conn : LenBasedConn σ} {s : Bytes} (h : conn.Holds s)
    (hlost : conn.lost = false)
    (hkinds : ∀ f ∈ (lenBasedFramer.split s).1, f.Consumed parsers ∨ f.Fatal parsers)
    (hfuel : (lenBasedFramer.split s).1.length < fuel) :
    ∃ next, conn.decodeLoop parsers fuel = some next ∧ Decoded parsers conn s next := by
  induction fuel generalizing conn s with
  | zero => exact absurd hfuel (Nat.not_lt_zero _)
  | succ fuel ih =>
      cases htake : takeLenBasedFrame s with
      | none =>
          obtain ⟨next, hround, hholds, hbuffer, hcalls, hnext⟩ := h.round_wait parsers htake
          have hdecoded : Decoded parsers next s next :=
            .refl hholds htake hbuffer (hnext.trans hlost)
          exact ⟨next, decodeLoop_stop hround (by simp), hdecoded.congr hcalls⟩
      | some taken =>
          obtain ⟨f, rest⟩ := taken
          have hsplit : lenBasedFramer.split s
              = (f :: (lenBasedFramer.split rest).1, (lenBasedFramer.split rest).2) :=
            Framer.split_of_some htake
          rw [hsplit] at hkinds hfuel
          obtain ⟨hf, hothers⟩ := List.forall_mem_cons.mp hkinds
          rw [List.length_cons] at hfuel
          rcases hf with hconsumed | hfatal
          · obtain ⟨next, hround, hstate, hbuffer, hcalls, hnext⟩ := h.round_consumed htake hconsumed
            have hholds : next.Holds rest := hbuffer ▸ .header hstate
            have hkept : next.lost = false := hnext.trans hlost
            by_cases hempty : rest = []
            · subst hempty
              have hdecoded : Decoded parsers next [] next := .refl hholds rfl hbuffer hkept
              exact ⟨next, decodeLoop_stop hround (by simp [hbuffer]),
                hdecoded.cons htake hconsumed hcalls⟩
            · obtain ⟨last, hloop, hdecoded⟩ := ih hholds hkept hothers (by omega)
              refine ⟨last, ?_, hdecoded.cons htake hconsumed hcalls⟩
              rw [decodeLoop, hround]
              exact (if_pos ⟨rfl, by rwa [hbuffer]⟩).trans hloop
          · obtain ⟨next, hround, hcalls, hnext⟩ := h.round_fatal htake hfatal
            exact ⟨next, decodeLoop_stop hround (by simp), .fatal htake hfatal hcalls hnext⟩

theorem length_split_le_of_holds {conn : LenBasedConn σ} {s : Bytes} (h : conn.Holds s) :
    (lenBasedFramer.split s).1.length ≤ conn.inBuffer.length + 1 := by
  cases h with
  | header hstate => exact (Framer.length_split_le _).trans (Nat.le_succ _)
  | @payload messageType msb lsb hparsing =>
      cases htake : takeLenBasedFrame (messageType :: msb :: lsb :: conn.inBuffer) with
      | none =>
          have hsplit : lenBasedFramer.split (messageType :: msb :: lsb :: conn.inBuffer)
              = ([], messageType :: msb :: lsb :: conn.inBuffer) := Framer.split_of_none htake
          rw [hsplit]
          exact Nat.zero_le _
      | some taken =>
          obtain ⟨f, rest⟩ := taken
          have hsplit : lenBasedFramer.split (messageType :: msb :: lsb :: conn.inBuffer)
              = (f :: (lenBasedFramer.split rest).1, (lenBasedFramer.split rest).2) :=
            Framer.split_of_some htake
          obtain ⟨msb', lsb', hs, -⟩ := takeLenBasedFrame_eq_some_iff.mp htake
          simp only [List.cons.injEq] at hs
          have hlength := congrArg List.length hs.2.2.2
          have hrest := lenBasedFramer.length_split_le rest
          rw [hsplit, List.length_cons]
          rw [List.length_append] at hlength
          omega

/-- What a connection has after a stream: its frames are handled, and unless the
connection is lost it holds what is left. -/
structure Received (parsers : PayloadParsers σ) (s : Bytes) (conn : LenBasedConn σ) : Prop where
  handled : Handled parsers (lenBasedFramer.split s).1 conn.calls conn.lost
  holds : conn.lost = false → conn.Holds (lenBasedFramer.split s).2 ∧
    conn.inBuffer = withoutHeader (lenBasedFramer.split s).2

theorem received_new (ctx : σ) : Received parsers [] (new ctx) := by
  have hnil : lenBasedFramer.split [] = ([], []) := Framer.split_of_none rfl
  refine ⟨?_, ?_⟩
  · rw [hnil]
    exact .all (by simp)
  · intro _
    rw [hnil]
    exact ⟨.header rfl, rfl⟩

theorem Received.readCb {s : Bytes} {conn : LenBasedConn σ} (h : Received parsers s conn)
    {chunk : Bytes}
    (hkinds : ∀ f ∈ (lenBasedFramer.split (s ++ chunk)).1,
      f.Consumed parsers ∨ f.Fatal parsers) :
    ∃ next, conn.readCb parsers chunk = some next ∧ Received parsers (s ++ chunk) next := by
  have hsplit := lenBasedFramer.split_append s chunk
  rw [hsplit] at hkinds
  cases hlost : conn.lost with
  | true =>
      refine ⟨conn, ?_, ?_, ?_⟩
      · rw [LenBasedConn.readCb, hlost]
        rfl
      · have hhandled := h.handled
        rw [hlost] at hhandled
        rw [hlost, hsplit]
        generalize (lenBasedFramer.split s).1 = frames at hhandled
        generalize conn.calls = calls at hhandled
        cases hhandled with
        | upTo hgood hbad =>
            rw [List.append_assoc]
            exact .upTo hgood hbad
      · rw [hlost]
        intro hkept
        cases hkept
  | false =>
      have hhandled := h.handled
      rw [hlost] at hhandled
      have hholds := (h.holds hlost).1.receive chunk
      have hfuel := length_split_le_of_holds hholds
      obtain ⟨next, hloop, ⟨made, hmade, hnew⟩, hnext⟩ := decodeLoop_decoded hholds hlost
        (fun f hf => hkinds f (List.mem_append_right _ hf)) (Nat.lt_succ_of_le hfuel)
      refine ⟨next, ?_, ?_, ?_⟩
      · have hread : conn.readCb parsers chunk
            = decodeTcpMessage parsers { conn with inBuffer := conn.inBuffer ++ chunk } :=
          if_neg (by simp [hlost])
        exact hread.trans hloop
      · rw [hsplit, hmade]
        exact hnew.append hhandled
      · rw [hsplit]
        exact hnext

theorem Received.feedChunks {s : Bytes} {conn : LenBasedConn σ} (h : Received parsers s conn)
    (chunks : List Bytes)
    (hkinds : ∀ f ∈ (lenBasedFramer.split (s ++ chunks.flatten)).1,
      f.Consumed parsers ∨ f.Fatal parsers) :
    ∃ next, LenBasedConn.feedChunks parsers conn chunks = some next ∧
      Received parsers (s ++ chunks.flatten) next := by
  induction chunks generalizing s conn with
  | nil =>
      refine ⟨conn, rfl, ?_⟩
      rw [List.flatten_nil, List.append_nil]
      exact h
  | cons chunk chunks ih =>
      rw [List.flatten_cons, ← List.append_assoc] at hkinds ⊢
      have hfirst : ∀ f ∈ (lenBasedFramer.split (s ++ chunk)).1,
          f.Consumed parsers ∨ f.Fatal parsers := by
        intro f hf
        apply hkinds f
        rw [lenBasedFramer.split_append]
        exact List.mem_append_left _ hf
      obtain ⟨middle, hread, hmiddle⟩ := h.readCb hfirst
      obtain ⟨next, hfeed, hnext⟩ := ih hmiddle hkinds
      refine ⟨next, ?_, hnext⟩
      rw [LenBasedConn.feedChunks, hread]
      exact hfeed

/-- When the parsers take exactly the payloads, the calls are the frames. -/
theorem Received.all {s : Bytes} {conn : LenBasedConn σ} (h : Received parsers s conn)
    (hframes : ∀ f ∈ (lenBasedFramer.split s).1, f.Consumed parsers) :
    conn.calls = (lenBasedFramer.split s).1 ∧
      conn.inBuffer = withoutHeader (lenBasedFramer.split s).2 := by
  obtain ⟨hhandled, hholds⟩ := h
  generalize (lenBasedFramer.split s).1 = frames at hhandled hframes
  generalize hlost : conn.lost = lost at hhandled hholds
  generalize hcalls : conn.calls = calls at hhandled
  cases hhandled with
  | all _ => exact ⟨rfl, (hholds rfl).2⟩
  | @upTo good later bad _ hbad =>
      exact absurd hbad ((hframes bad (by simp)).not_fatal conn.ctx)

/-- However a stream is cut, the parsers are called with the same frames as when
it comes whole, and after each chunk the buffer has what came of the last frame
without its header. -/
theorem feedChunks_resumes (ctx : σ) {stream : Bytes}
    (hframes : ∀ f ∈ (lenBasedFramer.split stream).1, f.Consumed parsers) {chunks : List Bytes}
    (hcut : chunks.flatten = stream) :
    ∃ whole last, LenBasedConn.feedChunks parsers (new ctx) [stream] = some whole ∧
      LenBasedConn.feedChunks parsers (new ctx) chunks = some last ∧
      last.calls = whole.calls ∧ whole.calls = (lenBasedFramer.split stream).1 ∧
      ∀ before, before <+: chunks → ∃ conn,
        LenBasedConn.feedChunks parsers (new ctx) before = some conn ∧
        conn.inBuffer = withoutHeader (lenBasedFramer.split before.flatten).2 := by
  have hpart : ∀ before, before <+: chunks →
      ∀ f ∈ (lenBasedFramer.split before.flatten).1, f.Consumed parsers := by
    rintro before ⟨after, rfl⟩ f hf
    apply hframes f
    rw [← hcut, List.flatten_append, lenBasedFramer.split_append]
    exact List.mem_append_left _ hf
  have hfeed : ∀ before : List Bytes,
      (∀ f ∈ (lenBasedFramer.split before.flatten).1, f.Consumed parsers) →
      ∃ conn, LenBasedConn.feedChunks parsers (new ctx) before = some conn ∧
        conn.calls = (lenBasedFramer.split before.flatten).1 ∧
        conn.inBuffer = withoutHeader (lenBasedFramer.split before.flatten).2 := by
    intro before hconsumed
    obtain ⟨conn, hconn, hreceived⟩ := (received_new ctx).feedChunks before
      (fun f hf => .inl (hconsumed f hf))
    exact ⟨conn, hconn, hreceived.all hconsumed⟩
  have hsingle : [stream].flatten = stream := by simp
  obtain ⟨whole, hwhole, hcalls, -⟩ := hfeed [stream] (by rwa [hsingle])
  obtain ⟨last, hlast, hcalls', -⟩ := hfeed chunks (by rwa [hcut])
  rw [hsingle] at hcalls
  rw [hcut] at hcalls'
  refine ⟨whole, last, hwhole, hlast, hcalls'.trans hcalls.symm, hcalls, ?_⟩
  intro before hbefore
  obtain ⟨conn, hconn, -, hbuffer⟩ := hfeed before (hpart before hbefore)
  exact ⟨conn, hconn, hbuffer⟩

def dropPayload : PayloadParser Unit := fun ctx buffer len => some (ctx, buffer.drop len)

/-- Two frames, the first without payload, cut inside the second header. -/
theorem feedChunks_resumes_twoFrames :
    ∃ whole last,
      LenBasedConn.feedChunks (tmqLenBasedCodecRegisterParser tmqLenBasedCodecInit 1 dropPayload)
        (new ()) [[1, 0, 0, 1, 0, 2, 7, 8]] = some whole ∧
      LenBasedConn.feedChunks (tmqLenBasedCodecRegisterParser tmqLenBasedCodecInit 1 dropPayload)
        (new ()) [[1, 0, 0, 1], [0, 2, 7], [8]] = some last ∧
      last.calls = whole.calls ∧
      whole.calls = (lenBasedFramer.split [1, 0, 0, 1, 0, 2, 7, 8]).1 ∧
      ∀ before, before <+: [[1, 0, 0, 1], [0, 2, 7], [8]] → ∃ conn,
        LenBasedConn.feedChunks (tmqLenBasedCodecRegisterParser tmqLenBasedCodecInit 1 dropPayload)
          (new ()) before = some conn ∧
        conn.inBuffer = withoutHeader (lenBasedFramer.split before.flatten).2 := by
  refine feedChunks_resumes () ?_ rfl
  have hframes : lenBasedFramer.split [1, 0, 0, 1, 0, 2, 7, 8] = ([⟨1, []⟩, ⟨1, [7, 8]⟩], []) := by
    have hfirst : takeLenBasedFrame [1, 0, 0, 1, 0, 2, 7, 8] = some (⟨1, []⟩, [1, 0, 2, 7, 8]) := rfl
    have hsecond : takeLenBasedFrame [1, 0, 2, 7, 8] = some (⟨1, [7, 8]⟩, []) := rfl
    rw [Framer.split_of_some hfirst, Framer.split_of_some hsecond, Framer.split_of_none rfl]
  rw [hframes]
  intro f hf
  have htype : f.messageType = 1 := by
    simp only [List.mem_cons, List.not_mem_nil, or_false] at hf
    rcases hf with rfl | rfl <;> rfl
  refine ⟨dropPayload, ?_, ?_⟩
  · rw [htype]
    rfl
  · intro ctx rest
    refine ⟨ctx, ?_⟩
    rw [dropPayload, List.drop_left]

end LenBasedConn

end TinyMqtt
