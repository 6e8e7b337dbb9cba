import TinyMqtt.Cluster.Codec
import TinyMqtt.Codec.Console
import TinyMqtt.Lib.Run

/-!
The dispatches of both length-based codecs. The codec of the cluster is the
length-based one with two parsers, the second of which takes a whole PUBLISH
whatever the length of the frame; so its frames are not known before it has
run, and its dispatches are looked at round by round.
-/

namespace TinyMqtt

/-! ### The codec of the cluster -/

/-- What the parsers of the cluster change besides the buffer. -/
abbrev ClusterCtx := TcpConnState × List ClusterEvent

namespace LenBasedConn

def clusterConn (conn : LenBasedConn ClusterCtx) : ClusterConn :=
  ⟨conn.ctx.1, conn.inBuffer, conn.parsing, conn.ctx.2⟩

end LenBasedConn

def clusterParser (parse : ClusterConn → Nat → Option ClusterConn) : PayloadParser ClusterCtx :=
  fun ctx buffer len =>
    (parse ⟨ctx.1, buffer, ⟨.parsingPayload, 0, 0⟩, ctx.2⟩ len).map fun conn =>
      ((conn.state, conn.log), conn.inBuffer)

variable (auth : BrokerAuth)

/-- `tmq_cluster_codec_init`. -/
def clusterParsers : PayloadParsers ClusterCtx :=
  tmqLenBasedCodecRegisterParser
    (tmqLenBasedCodecRegisterParser tmqLenBasedCodecInit ClusterMessageType.clusterRouteSync.code
      (clusterParser fun conn len => some (conn.parseAddRouteMessage len)))
    ClusterMessageType.clusterTunPublish.code
    (clusterParser fun conn _ => conn.parseTunPublishMessage auth)

theorem parserAt_clusterParsers (messageType : UInt8) :
    parserAt (clusterParsers auth) messageType
      = if messageType = ClusterMessageType.clusterTunPublish.code then
          some (clusterParser fun conn _ => conn.parseTunPublishMessage auth)
        else if messageType = ClusterMessageType.clusterRouteSync.code then
          some (clusterParser fun conn len => some (conn.parseAddRouteMessage len))
        else none := by
  rw [clusterParsers, parserAt_register (by decide), parserAt_register (by decide), parserAt_init]

/-- A tunnel does not look at the header of its frame. -/
theorem parseTunPublishMessage_parsing (conn : ClusterConn) (parsing : LenBasedParsingCtx) :
    ClusterConn.parseTunPublishMessage auth { conn with parsing := parsing }
      = (conn.parseTunPublishMessage auth).map fun next => { next with parsing := parsing } := by
  have htunnel : ({ conn with parsing := parsing } : ClusterConn).tunnelConn = conn.tunnelConn := rfl
  simp only [ClusterConn.parseTunPublishMessage, htunnel, Option.bind_eq_bind]
  cases decodeTcpMessage auth conn.tunnelConn with
  | none => rfl
  | some decoded =>
      simp only [Option.bind_some]
      cases ClusterConn.tunneledPublishes decoded.log <;> rfl

/-- The call through the table is that of the cluster's decoder. -/
theorem payloadParsers_clusterConn (conn : LenBasedConn ClusterCtx) :
    conn.clusterConn.payloadParsers auth conn.parsing.messageType conn.parsing.payloadLen.toNat
      = (conn.dispatch (clusterParsers auth)).map fun done =>
          ⟨done.1.1, done.2, conn.parsing, done.1.2⟩ := by
  rw [LenBasedConn.dispatch, parserAt_clusterParsers, ClusterConn.payloadParsers]
  by_cases hroute : conn.parsing.messageType = ClusterMessageType.clusterRouteSync.code
  · rw [if_pos hroute, if_neg (by rw [hroute]; decide), if_pos hroute]
    rfl
  by_cases htunnel : conn.parsing.messageType = ClusterMessageType.clusterTunPublish.code
  · rw [if_neg hroute, if_pos htunnel, if_pos htunnel]
    have hself : conn.clusterConn = { (⟨conn.ctx.1, conn.inBuffer, ⟨.parsingPayload, 0, 0⟩,
        conn.ctx.2⟩ : ClusterConn) with parsing := conn.parsing } := rfl
    rw [hself, parseTunPublishMessage_parsing, Option.bind_eq_bind, Option.bind_some,
      clusterParser, Option.map_map]
    rfl
  · rw [if_neg hroute, if_neg htunnel, if_neg htunnel, if_neg hroute]
    rfl

theorem onParsingPayload_clusterConn (conn : LenBasedConn ClusterCtx) (hlost : conn.lost = false) :
    conn.clusterConn.onParsingPayload auth
      = if (conn.onParsingPayload (clusterParsers auth)).2.lost then none
        else some ((conn.onParsingPayload (clusterParsers auth)).1,
          (conn.onParsingPayload (clusterParsers auth)).2.clusterConn) := by
  have hcall := payloadParsers_clusterConn auth conn
  rw [ClusterConn.onParsingPayload, LenBasedConn.onParsingPayload]
  by_cases hshort : conn.inBuffer.length < conn.parsing.payloadLen.toNat
  · have hshort' : conn.clusterConn.inBuffer.length < conn.clusterConn.parsing.payloadLen.toNat :=
      hshort
    simp only [hshort, hshort', if_true, hlost]
    rfl
  · have hshort' : ¬conn.clusterConn.inBuffer.length
        < conn.clusterConn.parsing.payloadLen.toNat := hshort
    simp only [hshort, hshort', if_false]
    change (do
      let conn' ← conn.clusterConn.payloadParsers auth conn.parsing.messageType
        conn.parsing.payloadLen.toNat
      some (true, { conn' with parsing := { conn'.parsing with state := .parsingHeader } })) = _
    rw [hcall]
    cases conn.dispatch (clusterParsers auth) with
    | none => rfl
    | some done => simp [hlost, LenBasedConn.clusterConn]

/-- A round of the cluster's decoder is one of the length-based decoder. -/
theorem decodeRound_clusterConn (conn : LenBasedConn ClusterCtx) (hlost : conn.lost = false) :
    conn.clusterConn.decodeRound auth
      = if (conn.decodeRound (clusterParsers auth)).2.lost then none
        else some ((conn.decodeRound (clusterParsers auth)).1,
          (conn.decodeRound (clusterParsers auth)).2.clusterConn) := by
  obtain ⟨ctx, buffer, ⟨state, messageType, len⟩, calls, lost⟩ := conn
  obtain rfl : lost = false := hlost
  cases state with
  | parsingPayload => exact onParsingPayload_clusterConn auth _ rfl
  | parsingHeader =>
      match buffer with
      | [] => rfl
      | [a] => rfl
      | [a, b] => rfl
      | messageType :: msb :: lsb :: buffer =>
          exact onParsingPayload_clusterConn auth
            ⟨ctx, buffer, ⟨.parsingPayload, messageType, beUint16 msb lsb⟩, calls, false⟩ rfl

/-- So is the loop: the cluster's decoder has no result where the connection is
lost. -/
theorem decodeLoop_clusterConn (fuel : Nat) (conn : LenBasedConn ClusterCtx)
    (hlost : conn.lost = false) :
    conn.clusterConn.decodeLoop auth fuel
      = (conn.decodeLoop (clusterParsers auth) fuel).bind fun next =>
          if next.lost then none else some next.clusterConn := by
  induction fuel generalizing conn with
  | zero => rfl
  | succ fuel ih =>
      rw [ClusterConn.decodeLoop, LenBasedConn.decodeLoop, decodeRound_clusterConn auth conn hlost]
      have hkeeps : (conn.decodeRound (clusterParsers auth)).1 = true →
          (conn.decodeRound (clusterParsers auth)).2.lost = conn.lost :=
        LenBasedConn.decodeRound_keeps
      generalize conn.decodeRound (clusterParsers auth) = round at hkeeps ⊢
      obtain ⟨goesOn, next⟩ := round
      dsimp only at hkeeps ⊢
      by_cases hmore : goesOn = true ∧ next.inBuffer ≠ []
      · have hnext : next.lost = false := (hkeeps hmore.1).trans hlost
        have hmore' : goesOn = true ∧ next.clusterConn.inBuffer ≠ [] := hmore
        rw [if_pos hmore, hnext]
        simp only [Bool.false_eq_true, if_false, Option.bind_eq_bind, Option.bind_some]
        rw [if_pos hmore']
        exact ih next hnext
      · have hmore' : ¬(goesOn = true ∧ next.clusterConn.inBuffer ≠ []) := hmore
        rw [if_neg hmore, Option.bind_some]
        cases next.lost with
        | true => rfl
        | false =>
            simp only [Bool.false_eq_true, if_false, Option.bind_eq_bind, Option.bind_some]
            exact if_neg hmore'

/-! ### Runs of a decoder -/

inductive LenBasedInput where
  | receive (chunk : Bytes)
  | round
  deriving DecidableEq, Repr

structure LenBasedDecoder (σ : Type) where
  conn : LenBasedConn σ
  decoding : Bool

namespace LenBasedDecoder

variable {σ : Type}

def start (ctx : σ) : LenBasedDecoder σ := ⟨.new ctx, false⟩

/-- Bytes arrive at a decoder that rests and wake it. After its rounds it rests
when the loop ends, and nothing follows when the connection is lost. -/
def step (parsers : PayloadParsers σ) (d : LenBasedDecoder σ) :
    LenBasedInput → Option (LenBasedDecoder σ)
  | .receive chunk =>
      if d.decoding ∨ d.conn.lost then none
      else some ⟨{ d.conn with inBuffer := d.conn.inBuffer ++ chunk }, true⟩
  | .round =>
      if d.decoding then
        let (goesOn, conn) := d.conn.decodeRound parsers
        some ⟨conn, goesOn && !conn.inBuffer.isEmpty⟩
      else none

end LenBasedDecoder

/-- The frame whose payload the next round hands to a parser: its header is taken
already or stands at the front of the buffer, and its payload is there. -/
def LenBasedConn.wholeFrame {σ : Type} (conn : LenBasedConn σ) : Option LenBasedFrame :=
  match conn.parsing.state with
  | .parsingHeader => (takeLenBasedFrame conn.inBuffer).map Prod.fst
  | .parsingPayload =>
      if conn.inBuffer.length < conn.parsing.payloadLen.toNat then none
      else some ⟨conn.parsing.messageType, conn.inBuffer.take conn.parsing.payloadLen.toNat⟩

variable {σ : Type}

theorem onParsingPayload_calls (parsers : PayloadParsers σ) (conn : LenBasedConn σ) :
    (conn.onParsingPayload parsers).2.calls = conn.calls ++
      (if conn.inBuffer.length < conn.parsing.payloadLen.toNat then [] else
        [⟨conn.parsing.messageType, conn.inBuffer.take conn.parsing.payloadLen.toNat⟩]) := by
  rw [LenBasedConn.onParsingPayload]
  by_cases hshort : conn.inBuffer.length < conn.parsing.payloadLen.toNat
  · simp only [hshort, if_true, List.append_nil]
  · simp only [hshort, if_false]
    cases conn.dispatch parsers <;> rfl

/-- A round calls a parser for the whole frame it finds. -/
theorem decodeRound_calls (parsers : PayloadParsers σ) (conn : LenBasedConn σ) :
    (conn.decodeRound parsers).2.calls = conn.calls ++ conn.wholeFrame.toList := by
  obtain ⟨ctx, buffer, ⟨state, messageType, len⟩, calls, lost⟩ := conn
  cases state with
  | parsingPayload =>
      refine (onParsingPayload_calls parsers _).trans ?_
      rw [LenBasedConn.wholeFrame]
      dsimp only
      split <;> rfl
  | parsingHeader =>
      match buffer with
      | [] => exact (List.append_nil calls).symm
      | [a] => exact (List.append_nil calls).symm
      | [a, b] => exact (List.append_nil calls).symm
      | messageType :: msb :: lsb :: buffer =>
          refine (onParsingPayload_calls parsers
            ⟨ctx, buffer, ⟨.parsingPayload, messageType, beUint16 msb lsb⟩, calls, lost⟩).trans ?_
          rw [LenBasedConn.wholeFrame]
          dsimp only [takeLenBasedFrame]
          by_cases hshort : buffer.length < (beUint16 msb lsb).toNat
          · rw [if_pos hshort, if_neg (Nat.not_le.mpr hshort)]
            rfl
          · rw [if_neg hshort, if_pos (Nat.not_lt.mp hshort)]
            rfl

namespace LenBasedDecoder

theorem calls_step {parsers : PayloadParsers σ} {d next : LenBasedDecoder σ}
    {input : LenBasedInput} (hstep : d.step parsers input = some next) :
    next.conn.calls
      = d.conn.calls ++ (if input = .round then d.conn.wholeFrame.toList else []) := by
  cases input with
  | receive chunk =>
      rw [step] at hstep
      split at hstep
      · cases hstep
      · obtain rfl := Option.some.inj hstep
        exact (List.append_nil _).symm
  | round =>
      rw [step] at hstep
      split at hstep
      · obtain rfl := Option.some.inj hstep
        exact decodeRound_calls parsers d.conn
      · cases hstep

/-- What is asked of every dispatch holds throughout a run exactly when every
round that finds a whole frame finds one of which it holds. -/
theorem calls_iff {parsers : PayloadParsers σ} {Safe : LenBasedFrame → Prop} {ctx : σ}
    {inputs : List LenBasedInput} {final : LenBasedDecoder σ}
    (hrun : Run.runs (step parsers) (start ctx) inputs = some final) :
    (∀ earlier, earlier <+: inputs → ∀ d, Run.runs (step parsers) (start ctx) earlier = some d →
        ∀ f ∈ d.conn.calls, Safe f) ↔
      Run.Admissible (fun d input => input = .round → ∀ f ∈ d.conn.wholeFrame, Safe f)
        (step parsers) (start ctx) inputs := by
  have hobserve : ∀ d : LenBasedDecoder σ, (∀ f ∈ d.conn.calls, Safe f) →
      ∀ f ∈ d.conn.calls, Safe f := fun _ hsafe => hsafe
  have haccepted : ∀ input ∈ inputs, (fun _ : LenBasedInput => True) input :=
    fun _ _ => trivial
  have hstart : ∀ f ∈ (start ctx).conn.calls, Safe f := List.forall_mem_nil Safe
  refine Run.runs_always_iff hobserve ?_ ?_ haccepted hstart hrun
  · intro d input next hsafe _ hallowed hstep f hf
    rw [calls_step hstep] at hf
    rcases List.mem_append.mp hf with hf | hf
    · exact hsafe f hf
    · split at hf
      · rename_i hround
        exact hallowed hround f (Option.mem_toList.mp hf)
      · cases hf
  · intro d input next hstep hnot hall
    obtain ⟨hround, hunsafe⟩ := Classical.not_imp.mp hnot
    apply hunsafe
    intro f hf
    apply hall f
    rw [calls_step hstep, if_pos hround]
    exact List.mem_append_right _ (Option.mem_toList.mpr hf)

end LenBasedDecoder

/-! ### Safety -/

/-- The types that the codec of the cluster has parsers for. -/
def ClusterTyped (f : LenBasedFrame) : Prop :=
  f.messageType = ClusterMessageType.clusterRouteSync.code ∨
    f.messageType = ClusterMessageType.clusterTunPublish.code

theorem isSome_parserAt_clusterParsers (f : LenBasedFrame) :
    (parserAt (clusterParsers auth) f.messageType).isSome ↔ ClusterTyped f := by
  rw [parserAt_clusterParsers, ClusterTyped]
  split
  · rename_i htunnel
    exact iff_of_true rfl (.inr htunnel)
  · rename_i htunnel
    split
    · rename_i hroute
      exact iff_of_true rfl (.inl hroute)
    · rename_i hroute
      exact iff_of_false (by simp) (by simp [htunnel, hroute])

/-- A run of the cluster's decoder dispatches to registered parsers only. -/
def ClusterSafe (inputs : List LenBasedInput) (ctx : ClusterCtx) : Prop :=
  ∀ earlier, earlier <+: inputs → ∀ d : LenBasedDecoder ClusterCtx,
    Run.runs (LenBasedDecoder.step (clusterParsers auth)) (.start ctx) earlier = some d →
      ∀ f ∈ d.conn.calls, (parserAt (clusterParsers auth) f.messageType).isSome

/-- The dispatches on the console are safe exactly when every whole frame adds a
user, and those on the cluster port exactly when every whole frame that a round
finds has one of the two types. -/
theorem lenBased_safe_iff (chunks : List Bytes) (auth : BrokerAuth) (inputs : List LenBasedInput)
    (ctx : ClusterCtx) (final : LenBasedDecoder ClusterCtx) :
    (∃ conn, LenBasedConn.feedChunks consoleParsers (.new []) chunks = some conn ∧
      ((∀ f ∈ conn.calls, ConsoleSafe f) ↔
        ∀ f ∈ (lenBasedFramer.split chunks.flatten).1, AddsUser f)) ∧
    (Run.runs (LenBasedDecoder.step (clusterParsers auth)) (.start ctx) inputs = some final →
      (ClusterSafe auth inputs ctx ↔
        Run.Admissible (fun d input => input = .round → ∀ f ∈ d.conn.wholeFrame, ClusterTyped f)
          (LenBasedDecoder.step (clusterParsers auth)) (.start ctx) inputs)) := by
  refine ⟨console_safe_iff chunks, ?_⟩
  intro hrun
  simp only [ClusterSafe, isSome_parserAt_clusterParsers]
  exact LenBasedDecoder.calls_iff hrun

/-- Two frames on the console and two on the cluster port, in pieces. -/
def consoleChunks : List Bytes := [[0, 0], [3, 117, 58, 112, 0], [0, 3, 118, 58, 113]]

def routeInputs : List LenBasedInput :=
  [.receive [0, 0], .round, .receive [1, 97, 0, 0], .round, .round, .receive [1, 98], .round]

theorem lenBased_safe_iff_route :
    (∃ conn, LenBasedConn.feedChunks consoleParsers (.new []) consoleChunks = some conn ∧
      ((∀ f ∈ conn.calls, ConsoleSafe f) ↔
        ∀ f ∈ (lenBasedFramer.split consoleChunks.flatten).1, AddsUser f)) ∧
    (ClusterSafe ⟨true, false, fun _ => false⟩ routeInputs (.connected, []) ↔
      Run.Admissible (fun d input => input = .round → ∀ f ∈ d.conn.wholeFrame, ClusterTyped f)
        (LenBasedDecoder.step (clusterParsers ⟨true, false, fun _ => false⟩))
        (.start (.connected, [])) routeInputs) :=
  (lenBased_safe_iff consoleChunks ⟨true, false, fun _ => false⟩ routeInputs
    (.connected, []) _).imp_right fun h => h rfl

/-- The console declares a message to delete a user, and has no parser for it. -/
theorem not_consoleSafe_delUser :
    ∃ conn, LenBasedConn.feedChunks consoleParsers (.new []) [[1, 0, 0]] = some conn ∧
      ¬∀ f ∈ conn.calls, ConsoleSafe f := by
  refine ⟨⟨[], [], ⟨.parsingPayload, 1, 0⟩, [⟨1, []⟩], true⟩, rfl, ?_⟩
  intro hall
  have hsafe := hall ⟨1, []⟩ (by simp)
  cases hsafe.registered

end TinyMqtt
