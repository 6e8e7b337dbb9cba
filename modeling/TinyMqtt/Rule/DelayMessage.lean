import TinyMqtt.Rule.MessageRules

/-!
Delayed messages (`rule_engine/adaptors/mqtt_delay_message_adaptor.c`,
`mqtt_delay_message` in `mqtt/mqtt_broker.c` and the rule that `broker.c` adds).
A publish to `$delay` goes through a rule to the adaptor, which is to send its
topic and message to a queue. What the queue hands back later is published.

The adaptor frees the string of the expiration before `amqp_basic_publish` reads
it, so the call that would send a message has no result. What it is called with
is given apart. Printing JSON is the library's.
-/

namespace TinyMqtt

open RuleParser (IsColumn Spells Blanks ColumnText ColumnsText SourceText SelectItem toLower
  isColumnByte isBlank leftBrace rightBrace dot comma payloadPrefix selectWord asWord fromWord)

/-! ### The rule -/

/-- `delay_message`, `exchange`, `routingKey` and `delayMS`. -/
def delayPlugin : Bytes := [100, 101, 108, 97, 121, 95, 109, 101, 115, 115, 97, 103, 101]

def exchangeParameter : Bytes := [101, 120, 99, 104, 97, 110, 103, 101]

def routingKeyParameter : Bytes := [114, 111, 117, 116, 105, 110, 103, 75, 101, 121]

def delayParameter : Bytes := [100, 101, 108, 97, 121, 77, 83]

/-- `delay-message-exchange`. -/
def delayExchange : Bytes :=
  [100, 101, 108, 97, 121, 45, 109, 101, 115, 115, 97, 103, 101, 45, 101, 120, 99, 104, 97, 110,
    103, 101]

/-- `$delay`. -/
def delayTopic : Bytes := [36, 100, 101, 108, 97, 121]

/-- The fields `delay` and `message` of a payload. -/
def delayField : Bytes := [100, 101, 108, 97, 121]

def messageField : Bytes := [109, 101, 115, 115, 97, 103, 101]

/-- What `main` prints into `select_rule`, which has room for 255 bytes. -/
def delaySelectRule (routingKey : Bytes) : Option Bytes :=
  let rule := sourceText "SELECT 'delay-message-exchange' AS {delay_message.exchange}, '" ++
    routingKey ++ sourceText "' AS {delay_message.routingKey}, payload.delay AS " ++
    sourceText "{delay_message.delayMS},payload.topic, payload.message, " ++
    sourceText "client_id, username, qos, retain FROM $delay"
  if rule.length < 256 then some rule else none

def delayRule (routingKey : Bytes) : Rule where
  source := messageEvents
  sourceTopic := some delayTopic
  columns := [⟨.str delayExchange, .parameter delayPlugin exchangeParameter⟩,
    ⟨.str routingKey, .parameter delayPlugin routingKeyParameter⟩,
    ⟨.payload delayField, .parameter delayPlugin delayParameter⟩,
    ⟨.payload topicField, .value topicField⟩, ⟨.payload messageField, .value messageField⟩,
    ⟨.field clientIdField, .value clientIdField⟩, ⟨.field usernameField, .value usernameField⟩,
    ⟨.field qosField, .value qosField⟩, ⟨.field retainField, .value retainField⟩]
  filter := none

/-! ### The adaptor -/

/-- `register_parameters`. -/
def delayParameters (name : Bytes) : Option AdaptorValueType :=
  if name = exchangeParameter ∨ name = routingKeyParameter then some .str
  else if name = delayParameter then some .integer
  else none

/-- What `amqp_basic_publish` is called with. The bytes of the expiration are
those that the freed string had. -/
structure AmqpMessage where
  exchange : Bytes
  routingKey : Bytes
  expiration : Bytes
  body : Bytes
  deriving DecidableEq, Repr

/-- The conversion to `int`. -/
def narrowToInt (n : Int) : Int := Int.bmod n (2 ^ 32)

/-- The conversion of an integer to a `double`, to the nearest one and to the
even one of two. -/
def asDouble (n : Int) : ℚ :=
  let unit := 2 ^ (n.natAbs.log2 - 52)
  let q := n.natAbs / unit
  let r := n.natAbs % unit
  n.sign * ((if unit < 2 * r ∨ (unit = 2 * r ∧ q % 2 = 1) then q + 1 else q) * unit : Nat)

/-- The item that `handle_event` adds to the object for a value. Of what is no
string it reads the member `integer`. -/
def payloadItem : FilterValue → Option CJsonItem
  | .str s => some (.string s)
  | .int n => some (.number (asDouble n))
  | .nullStr => some (.number 0)
  | .bool _ | .json | .null => none

section Adaptor

variable (cJsonPrint : List (Bytes × CJsonItem) → Bytes)

namespace DelayMessage

/-- `handle_event` up to its call of `amqp_basic_publish`, if it gets there.
Without the parameters that it needs it returns before. -/
def amqpArguments (parameters : Bytes → Option FilterValue)
    (payloadValues : List (Bytes × FilterValue)) : Option (Option AmqpMessage) :=
  match parameters exchangeParameter, (parameters routingKeyParameter).getD (.str []),
    parameters delayParameter with
  | some (.str exchange), .str routingKey, some (.int delay) => do
      let items ← payloadValues.mapM fun (name, v) => (payloadItem v).map (name, ·)
      let ex ← tmqStrParseInt (Int64.ofInt (narrowToInt delay)) 10
      return ex.map fun ex =>
        ⟨cstr exchange, cstr routingKey, cstr ex, cstr (cJsonPrint items)⟩
  | _, _, _ => some none

/-- `handle_event`. Its `tmq_str_free(ex)` stands before the call. -/
def handleEvent (parameters : Bytes → Option FilterValue)
    (payloadValues : List (Bytes × FilterValue)) : Option Unit :=
  match amqpArguments cJsonPrint parameters payloadValues with
  | none => none
  | some none => some ()
  | some (some _) => none

/-- The parameters that `handle_event` needs. -/
structure HasParameters (parameters : Bytes → Option FilterValue) : Prop where
  exchange : ∃ exchange, parameters exchangeParameter = some (.str exchange)
  routingKey : ∃ routingKey, (parameters routingKeyParameter).getD (.str []) = .str routingKey
  delay : ∃ delay, parameters delayParameter = some (.int delay)

end DelayMessage

/-- The expiration is written in decimal. -/
theorem exists_expiration (delay : Int) :
    ∃ ex, tmqStrParseInt (Int64.ofInt (narrowToInt delay)) 10 = some (some ex) ∧
      IsNumeral 10 (narrowToInt delay) ex := by
  have hlow : -2 ^ 31 ≤ narrowToInt delay := Int.le_bmod (by decide)
  have hhigh : narrowToInt delay < 2 ^ 31 := Int.bmod_lt (by decide)
  have hvalue : (Int64.ofInt (narrowToInt delay)).toInt = narrowToInt delay :=
    Int64.toInt_ofInt_of_le (by omega) (by omega)
  obtain ⟨ex, hex, hnumeral⟩ := exists_numeral (v := Int64.ofInt (narrowToInt delay))
    (by rw [hvalue]; omega) (b := 10) (by decide) (by decide)
  rw [hvalue] at hnumeral
  exact ⟨ex, hex, hnumeral⟩

theorem IsNumeral.zero_not_mem {v : Int} {text : Bytes} (h : IsNumeral 10 v text) : 0 ∉ text := by
  obtain ⟨digits, rfl, hlt, -⟩ := h
  intro hzero
  rcases List.mem_append.mp hzero with hsign | hdigit
  · split at hsign
    · cases List.mem_singleton.mp hsign
    · cases hsign
  · obtain ⟨d, hd, hbyte⟩ := List.mem_map.mp hdigit
    have hdigit := toNat_digitByte (hlt d hd)
    rw [hbyte] at hdigit
    exact absurd hdigit (by simp; omega)

/-- No delayed message is sent: whenever `handle_event` has what it needs, it has
no result, and otherwise it does nothing. -/
theorem handleEvent_eq_none_iff (parameters : Bytes → Option FilterValue)
    (payloadValues : List (Bytes × FilterValue)) :
    DelayMessage.handleEvent cJsonPrint parameters payloadValues = none ↔
      DelayMessage.HasParameters parameters := by
  constructor
  · intro hnone
    by_contra hnot
    have hreturns : DelayMessage.amqpArguments cJsonPrint parameters payloadValues = some none := by
      unfold DelayMessage.amqpArguments
      split
      · rename_i exchange routingKey delay hexchange hroutingKey hdelay
        exact absurd ⟨⟨exchange, hexchange⟩, ⟨routingKey, hroutingKey⟩, ⟨delay, hdelay⟩⟩ hnot
      · rfl
    rw [DelayMessage.handleEvent, hreturns] at hnone
    cases hnone
  · rintro ⟨⟨exchange, hexchange⟩, ⟨routingKey, hroutingKey⟩, ⟨delay, hdelay⟩⟩
    obtain ⟨ex, hex, -⟩ := exists_expiration delay
    rw [DelayMessage.handleEvent, DelayMessage.amqpArguments, hexchange, hroutingKey, hdelay]
    cases payloadValues.mapM fun (name, v) => (payloadItem v).map (name, ·) with
    | none => rfl
    | some items => simp [hex]

end Adaptor

/-! ### Back from the queue -/

/-- The conversion of a number to `int`. -/
def truncatedInt (value : ℚ) : Option Int :=
  let n := value.num.tdiv value.den
  if -2 ^ 31 ≤ n ∧ n < 2 ^ 31 then some n else none

def getStringValue : Option CJsonItem → Option Bytes
  | some (.string s) => some s
  | _ => none

/-- `(int) cJSON_GetNumberValue`. What is no number is converted from a value
that is no number either. -/
def getIntValue : Option CJsonItem → Option Int
  | some (.number value) => truncatedInt value
  | _ => none

section Return

variable {J : Type} (getObjectItem : J → Bytes → Option CJsonItem) (cJsonParse : Bytes → Option J)

/-- `mqtt_delay_message` with the request that `mqtt_publish` posts, if there
is one. -/
def mqttDelayMessage (payload : Bytes) : Option (Option (PublishReq Bytes)) :=
  match cJsonParse (cstr payload) with
  | none => some none
  | some payload =>
      match getStringValue (getObjectItem payload topicField),
        getStringValue (getObjectItem payload messageField) with
      | some topic, some message => do
          let qos ← getIntValue (getObjectItem payload qosField)
          let retain ← getIntValue (getObjectItem payload retainField)
          let username := getStringValue (getObjectItem payload usernameField)
          let clientId := getStringValue (getObjectItem payload clientIdField)
          return some
            { topic := tmqStrNew topic
              message := ⟨tmqStrNew message, (qos % 256).toNat⟩
              retain := retain % 256 ≠ 0
              isTunneledPub := false
              publisherUsername := tmqStrNew (username.getD [])
              publisherClientId := tmqStrNew (clientId.getD []) }
      | _, _ => some none

end Return

/-! ### Reading the rule -/

/-- A column without an alias that a comma follows. -/
theorem columnsText_plain {rest : Bytes} {items : List SelectItem} (col : Bytes)
    {blanks next : Bytes} (hcol : IsColumn col) (hblanks : Blanks blanks) (hnext : ColumnsText rest items next) :
    ColumnsText rest (⟨col, col⟩ :: items) (col ++ ([] ++ comma :: (blanks ++ next))) :=
  .cons hblanks hnext (.plain hcol (by simp [Blanks]) (fun _ => rfl))

/-- A column with an alias that a comma follows. -/
theorem columnsText_renamed {rest : Bytes} {items : List SelectItem} (col target : Bytes)
    {blanks next : Bytes} (hcol : IsColumn col) (htarget : IsColumn target) (hblanks : Blanks blanks)
    (hnext : ColumnsText rest items next) :
    ColumnsText rest (⟨col, target⟩ :: items)
      (col ++ ([32] ++ ([65, 83, 32] ++ ([] ++ (target ++ ([] ++ comma :: (blanks ++ next))))))) := by
  refine .cons hblanks hnext (.renamed hcol ?_ ?_ ?_ ?_ htarget ?_ (fun _ => rfl))
  all_goals decide +kernel

def quoted (s : Bytes) : Bytes := 39 :: (s ++ [39])

def inBraces (pluginName parameterName : Bytes) : Bytes :=
  leftBrace :: ((pluginName ++ dot :: parameterName) ++ [rightBrace])

def delayItemTexts (routingKey : Bytes) : List SelectItem :=
  [⟨quoted delayExchange, inBraces delayPlugin exchangeParameter⟩,
    ⟨quoted routingKey, inBraces delayPlugin routingKeyParameter⟩,
    ⟨payloadPrefix ++ delayField, inBraces delayPlugin delayParameter⟩,
    ⟨payloadPrefix ++ topicField, payloadPrefix ++ topicField⟩,
    ⟨payloadPrefix ++ messageField, payloadPrefix ++ messageField⟩,
    ⟨clientIdField, clientIdField⟩, ⟨usernameField, usernameField⟩, ⟨qosField, qosField⟩,
    ⟨retainField, retainField⟩]

theorem delayColumns_texts {routingKey : Bytes} (hkey : ∀ c ∈ routingKey, c ≠ 0) :
    List.Forall₂ (ItemText messageEvents) (delayRule routingKey).columns
      (delayItemTexts routingKey) := by
  have hzero : 0 ∉ routingKey := fun hmem => hkey 0 hmem rfl
  have hparameter : ∀ parameterName, parameterName ≠ [] →
      TargetText (.parameter delayPlugin parameterName) (inBraces delayPlugin parameterName) :=
    fun parameterName hne => .parameter (by decide) (by decide) hne
  refine .cons ⟨.quoted (.inl rfl) (by decide), hparameter _ (by decide)⟩ ?_
  refine .cons ⟨.quoted (.inl rfl) hzero, hparameter _ (by decide)⟩ ?_
  refine .cons ⟨.payload rfl (by decide), hparameter _ (by decide)⟩ ?_
  refine .cons ⟨.payload rfl (by decide), .payload⟩ ?_
  refine .cons ⟨.payload rfl (by decide), .payload⟩ ?_
  refine .cons ⟨.field (f := ⟨clientIdField, .str, 8, 0⟩) (by decide) (by decide),
    .name (by decide) (by decide)⟩ ?_
  refine .cons ⟨.field (f := ⟨usernameField, .str, 8, 8⟩) (by decide) (by decide),
    .name (by decide) (by decide)⟩ ?_
  refine .cons ⟨.field (f := ⟨qosField, .int, 1, 16⟩) (by decide) (by decide),
    .name (by decide) (by decide)⟩ ?_
  exact .cons ⟨.field (f := ⟨retainField, .int, 4, 20⟩) (by decide) (by decide),
    .name (by decide) (by decide)⟩ .nil

set_option maxRecDepth 4096 in
/-- The columns and the source as they stand in the text. -/
theorem delayColumns_text {routingKey : Bytes} (hkey : ∀ c ∈ routingKey, isColumnByte c = true) :
    ∃ columns, ColumnsText (delayTopic ++ ([] ++ [])) (delayItemTexts routingKey) columns ∧
      [83, 69, 76, 69, 67, 84, 32] ++ columns
        = sourceText "SELECT 'delay-message-exchange' AS {delay_message.exchange}, '" ++
          (routingKey ++ (sourceText "' AS {delay_message.routingKey}, payload.delay AS " ++
            (sourceText "{delay_message.delayMS},payload.topic, payload.message, " ++
              sourceText "client_id, username, qos, retain FROM $delay"))) := by
  have hquoted : IsColumn (quoted routingKey) := by
    refine ⟨List.cons_ne_nil _ _, ?_⟩
    intro c hc
    rcases List.mem_cons.mp hc with rfl | hc
    · rfl
    · rcases List.mem_append.mp hc with hc | hc
      · exact hkey c hc
      · obtain rfl := List.mem_singleton.mp hc
        rfl
  have hspace : Blanks [32] := by decide
  have hnone : Blanks [] := by decide
  have hretain := @ColumnsText.last (delayTopic ++ ([] ++ [])) ⟨retainField, retainField⟩
    [70, 82, 79, 77, 32] [] _ (by decide) hnone
    (@ColumnText.plain _ retainField [32] (by decide) hspace (by simp))
  have hqos := columnsText_plain qosField (by decide) hspace hretain
  have husername := columnsText_plain usernameField (by decide) hspace hqos
  have hclientId := columnsText_plain clientIdField (by decide) hspace husername
  have hmessage := columnsText_plain (payloadPrefix ++ messageField) (by decide) hspace hclientId
  have htopic := columnsText_plain (payloadPrefix ++ topicField) (by decide) hspace hmessage
  have hdelay := columnsText_renamed (payloadPrefix ++ delayField)
    (inBraces delayPlugin delayParameter) (by decide) (by decide) hnone htopic
  have hroutingKey := columnsText_renamed (quoted routingKey)
    (inBraces delayPlugin routingKeyParameter) hquoted (by decide) hspace hdelay
  have hexchange := columnsText_renamed (quoted delayExchange)
    (inBraces delayPlugin exchangeParameter) (by decide) (by decide) hspace hroutingKey
  have hquote : ∀ rest, quoted routingKey ++ rest = 39 :: (routingKey ++ 39 :: rest) := by
    intro rest
    simp [quoted]
  refine ⟨_, hexchange, ?_⟩
  rw [hquote]
  rfl

/-- What `main` adds is a text of the rule. -/
theorem delaySelectRule_text {routingKey text : Bytes}
    (hkey : ∀ c ∈ routingKey, isColumnByte c = true ∧ c ≠ 0)
    (htext : delaySelectRule routingKey = some text) : RuleText (delayRule routingKey) text := by
  rw [delaySelectRule] at htext
  split at htext
  · obtain ⟨columns, hcolumns, heq⟩ := delayColumns_text fun c hc => (hkey c hc).1
    simp only [List.append_assoc] at htext
    rw [← heq, Option.some.injEq] at htext
    have hzero : 0 ∉ ([] : Bytes) ++ ([83, 69, 76, 69, 67, 84, 32] ++ ([] ++ columns)) := by
      have hclosed : 0 ∉ sourceText "SELECT 'delay-message-exchange' AS {delay_message.exchange}, '" ∧
          0 ∉ sourceText "' AS {delay_message.routingKey}, payload.delay AS " ∧
          0 ∉ sourceText "{delay_message.delayMS},payload.topic, payload.message, " ∧
          0 ∉ sourceText "client_id, username, qos, retain FROM $delay" := by
        decide +kernel
      intro hmem
      rw [List.nil_append, List.nil_append, heq] at hmem
      simp only [List.mem_append, hclosed, false_or, or_false] at hmem
      exact (hkey 0 hmem).2 rfl
    rw [← htext]
    refine .mk ?_ ?_ ?_ (delayColumns_texts fun c hc => (hkey c hc).2) hcolumns
      (.topic ?_ ?_ ?_ ?_ (fun _ => rfl)) .none hzero
    all_goals decide +kernel
  · cases htext

section Returns

variable {A J : Type} {plugins : PluginsInfo A} {handle : PluginHandle A} {routingKey : Bytes}

/-- The rule is known where the plugin is loaded. -/
theorem delayRule_known (hplugin : plugins delayPlugin = some handle)
    (hparameters : handle.adaptorParameters = delayParameters) :
    (delayRule routingKey).Known plugins := by
  have hknown : ∀ parameterName, parameterName.length < 50 → delayParameters parameterName ≠ none →
      (Target.parameter delayPlugin parameterName).Known plugins := by
    intro parameterName hlength hhas
    exact ⟨hlength, handle, hplugin, by rw [hparameters]; exact hhas⟩
  refine ⟨by simp [delayRule, properSources], ?_, ?_⟩
  · simp only [delayRule, List.forall_mem_cons, List.not_mem_nil, false_imp_iff, implies_true,
      and_true]
    exact ⟨hknown _ (by decide) (by decide), hknown _ (by decide) (by decide),
      hknown _ (by decide) (by decide), ⟨by decide, trivial⟩, ⟨by decide, trivial⟩,
      ⟨by decide, trivial⟩, ⟨by decide, trivial⟩, ⟨by decide, trivial⟩, ⟨by decide, trivial⟩⟩
  · simp [Rule.adaptor, delayRule, Target.adaptor, hplugin]

variable (getObjectItem : J → Bytes → Option CJsonItem) (cJsonParse : Bytes → Option J)
  (cJsonPrint : List (Bytes × CJsonItem) → Bytes)

structure Delays (json : J) (topic message : Bytes) (ms : Int) : Prop where
  topic : getObjectItem json topicField = some (.string topic)
  message : getObjectItem json messageField = some (.string message)
  delay : ∃ value, getObjectItem json delayField = some (.number value) ∧
    truncated value = some ms

/-- The items of what is sent for a publish. -/
def delayItems (req : PublishReq Bytes) (topic message : Bytes) : List (Bytes × CJsonItem) :=
  [(topicField, .string (cstr topic)), (messageField, .string (cstr message)),
    (clientIdField, .string (cstr req.publisherClientId)),
    (usernameField, .string (cstr req.publisherUsername)),
    (qosField, .number (asDouble (Int.bmod req.message.qos 256))),
    (retainField, .number (asDouble req.retain.toNat))]

def delayedReq (req : PublishReq Bytes) (topic message : Bytes) : PublishReq Bytes :=
  { topic := cstr topic, message := ⟨cstr message, req.message.qos⟩, retain := req.retain,
    isTunneledPub := false, publisherUsername := cstr req.publisherUsername,
    publisherClientId := cstr req.publisherClientId }

def delaySelected (routingKey : Bytes) (req : PublishReq Bytes) (topic message : Bytes) (ms : Int) :
    List (Target × FilterValue) :=
  [(.parameter delayPlugin exchangeParameter, .str delayExchange),
    (.parameter delayPlugin routingKeyParameter, .str routingKey),
    (.parameter delayPlugin delayParameter, .int ms), (.value topicField, .str (cstr topic)),
    (.value messageField, .str (cstr message)),
    (.value clientIdField, .str (cstr req.publisherClientId)),
    (.value usernameField, .str (cstr req.publisherUsername)),
    (.value qosField, .int (Int.bmod req.message.qos 256)),
    (.value retainField, .int req.retain.toNat)]

theorem mapM_delayRule {req : PublishReq Bytes} {json : J} {topic message : Bytes} {ms : Int}
    (hparse : cJsonParse req.message.message = some json)
    (hdelays : Delays getObjectItem json topic message ms) :
    (delayRule routingKey).columns.mapM (Column.select
        ((TmqEvent.message (req.event cJsonParse true)).record getObjectItem))
      = some (delaySelected routingKey req topic message ms) := by
  obtain ⟨htopic, hmessage, value, hdelay, hms⟩ := hdelays
  have hpayload : ∀ name, ((TmqEvent.message (req.event cJsonParse true)).record getObjectItem).payload
      name = payloadValue getObjectItem (some json) name := by
    intro name
    simp [TmqEvent.record, PublishReq.event, hparse]
  have hvalue : ∀ name item, getObjectItem json name = some item →
      payloadValue getObjectItem (some json) name = jsonItemValue item := by
    intro name item hitem
    rw [payloadValue, Option.bind_some, hitem]
  simp only [delayRule, List.mapM_cons, List.mapM_nil, Column.select, Term.value, hpayload,
    hvalue _ _ htopic, hvalue _ _ hmessage, hvalue _ _ hdelay, jsonItemValue, hms]
  rfl

/-- What the adaptor is about to send when the rule calls it. -/
theorem amqpArguments_delayRule (hplugin : plugins delayPlugin = some handle)
    (hkey : 0 ∉ routingKey) {req : PublishReq Bytes} {json : J} {topic message : Bytes} {ms : Int}
    (hparse : cJsonParse req.message.message = some json)
    (hdelays : Delays getObjectItem json topic message ms) {call : AdaptorCall A}
    (hcall : (delayRule routingKey).Calls plugins
      ((TmqEvent.message (req.event cJsonParse true)).record getObjectItem) call) :
    call.adaptor = handle.adaptor ∧ DelayMessage.HasParameters call.parameters ∧
      ∃ expiration, IsNumeral 10 (narrowToInt ms) expiration ∧
        DelayMessage.amqpArguments cJsonPrint call.parameters call.payloadValues
          = some (some ⟨delayExchange, routingKey, expiration,
              cstr (cJsonPrint (delayItems req topic message))⟩) := by
  obtain ⟨hadaptor, selected, hselected, hparameters, hpayload⟩ := hcall
  have hms := @mapM_delayRule J routingKey getObjectItem cJsonParse req json topic message ms
    hparse hdelays
  obtain rfl : delaySelected routingKey req topic message ms = selected := by
    rw [hms] at hselected
    exact Option.some.inj hselected
  have hadaptors : (delayRule routingKey).adaptor plugins = some handle.adaptor := by
    simp [Rule.adaptor, delayRule, Target.adaptor, hplugin]
  have hexchange : call.parameters exchangeParameter = some (.str delayExchange) := by
    rw [hparameters]
    rfl
  have hroutingKey : call.parameters routingKeyParameter = some (.str routingKey) := by
    rw [hparameters]
    rfl
  have hdelay : call.parameters delayParameter = some (.int ms) := by
    rw [hparameters]
    rfl
  have hitems : call.payloadValues.mapM (fun (name, v) => (payloadItem v).map (name, ·))
      = some (delayItems req topic message) := by
    rw [hpayload]
    rfl
  obtain ⟨expiration, hexpiration, hnumeral⟩ := exists_expiration ms
  have hzero : cstr expiration = expiration :=
    (cstr_eq_self_iff expiration).mpr hnumeral.zero_not_mem
  refine ⟨Option.some.inj (hadaptor.symm.trans hadaptors),
    ⟨⟨_, hexchange⟩, ⟨routingKey, by rw [hroutingKey]; rfl⟩, ⟨ms, hdelay⟩⟩, expiration, hnumeral, ?_⟩
  rw [DelayMessage.amqpArguments, hexchange, hroutingKey, hdelay]
  simp only [Option.getD_some]
  rw [hitems, hexpiration, (cstr_eq_self_iff routingKey).mpr hkey]
  simp only [Option.bind_eq_bind, Option.bind_some, Option.map_some, hzero]
  rfl

/-- A small integer is a `double`. -/
theorem asDouble_eq {n : Int} (h : n.natAbs < 2 ^ 52) : asDouble n = n := by
  have hlog : n.natAbs.log2 - 52 = 0 := by
    by_cases hzero : n.natAbs = 0
    · rw [hzero]
      rfl
    · have := (Nat.log2_lt hzero).mpr h
      omega
  rw [asDouble, hlog]
  simp only [pow_zero, Nat.mod_one, Nat.div_one, Nat.mul_one, Nat.mul_zero, Nat.not_lt_zero,
    one_ne_zero, false_and, or_self, if_false]
  rw [← Int.cast_natCast, ← Int.cast_mul, Int.sign_mul_natAbs]

/-- A small integer comes back as it was. -/
theorem getIntValue_asDouble {n : Int} (h : n.natAbs < 2 ^ 31) :
    getIntValue (some (.number (asDouble n))) = some n := by
  rw [asDouble_eq (by omega), getIntValue, truncatedInt]
  simp only [Rat.num_intCast, Rat.den_intCast, Nat.cast_one, Int.tdiv_one]
  exact if_pos (by omega)

/-- An octet that is read with a sign and converted back. -/
theorem bmod_emod_toNat {n : Nat} (h : n < 256) : (Int.bmod n 256 % 256).toNat = n := by
  have hmod : Int.bmod n 256 % ((256 : Nat) : Int) = n % ((256 : Nat) : Int) := Int.bmod_emod
  rw [Nat.cast_ofNat] at hmod
  omega

/-- Publishing what is read back. -/
theorem mqttDelayMessage_delayItems {req : PublishReq Bytes} {topic message body : Bytes} {back : J}
    (hqos : req.message.qos < 256) (hback : cJsonParse (cstr body) = some back)
    (hitems : ∀ name, getObjectItem back name = (delayItems req topic message).lookup name) :
    mqttDelayMessage getObjectItem cJsonParse body = some (some (delayedReq req topic message)) := by
  have hqosValue : getIntValue ((delayItems req topic message).lookup qosField)
      = some (Int.bmod req.message.qos 256) := by
    have hbounds := Int.bmod_lt (x := req.message.qos) (m := 256) (by decide)
    have hlow := Int.le_bmod (x := req.message.qos) (m := 256) (by decide)
    exact getIntValue_asDouble (by omega)
  have hretain : getIntValue ((delayItems req topic message).lookup retainField)
      = some (req.retain.toNat : Int) := by
    have := Bool.toNat_le req.retain
    exact getIntValue_asDouble (by omega)
  have hflag : decide ((req.retain.toNat : Int) % 256 ≠ 0) = req.retain := by
    cases req.retain <;> rfl
  rw [mqttDelayMessage, hback]
  simp only [hitems, hqosValue, hretain]
  simp only [Option.bind_eq_bind, Option.bind_some, bmod_emod_toNat hqos, hflag]
  have husername : getStringValue ((delayItems req topic message).lookup usernameField)
      = some (cstr req.publisherUsername) := rfl
  have hclientId : getStringValue ((delayItems req topic message).lookup clientIdField)
      = some (cstr req.publisherClientId) := rfl
  change some (some _) = _
  simp only [husername, hclientId, Option.getD_some, tmqStrNew_bytes, cstr_cstr]
  rfl

/-- The rule's topic may stand in the tree. -/
theorem delayRule_valid (hplugin : plugins delayPlugin = some handle)
    (hparameters : handle.adaptorParameters = delayParameters) {text : Bytes}
    (htext : RuleText (delayRule routingKey) text) :
    EngineCall.Valid plugins (.addRule text : EngineCall Bytes) := by
  obtain ⟨result, hparse, htopic, -⟩ :=
    htext.tmqRuleParse (fun (_ : Unit) _ => none) (delayRule_known hplugin hparameters)
  intro result' hparse' _
  obtain rfl : result = result' := by
    rw [hparse] at hparse'
    exact Except.ok.inj (Option.some.inj hparse')
  rw [htopic]
  change ValidFilter (tmqTopicSplit delayTopic)
  decide

/-- Once the broker has added its rule, a publish to `$delay` whose payload asks
for a message makes the adaptor read the expiration that it has freed. Were it
not for that, the message would come back: the adaptor is about to send it with
the broker's routing key, and what is read back from that is published under the
topic of the payload with the quality of service, the flag and the names of the
publish that asked for it. -/
theorem delay_message_reads_freed (hplugin : plugins delayPlugin = some handle)
    (hparameters : handle.adaptorParameters = delayParameters)
    (hkey : ∀ c ∈ routingKey, isColumnByte c = true ∧ c ≠ 0) (text : Bytes)
    (htext : delaySelectRule routingKey = some text) (before after : List (EngineCall Bytes))
    (hvalid : ∀ call ∈ before ++ after, call.Valid plugins)
    (hstays : NodeStays plugins cJsonParse [delayTopic] (before ++ [.addRule text]) after)
    (engine : RuleEngine A Bytes)
    (hrun : Run.runs (EngineCall.step plugins cJsonParse) tmqRuleEngineInit
      (before ++ .addRule text :: after) = some engine) :
    ∃ address, ∀ req : PublishReq Bytes, req.topic = delayTopic → req.isTunneledPub = false →
      req.message.qos < 256 → ∀ json topic message ms,
      cJsonParse req.message.message = some json → Delays getObjectItem json topic message ms →
      ∀ calls, publishCalls getObjectItem cJsonParse engine req = some calls →
      ∃ call expiration, calls.filter (·.1 = address) = [(address, call)] ∧
        call.adaptor = handle.adaptor ∧
        DelayMessage.handleEvent cJsonPrint call.parameters call.payloadValues = none ∧
        IsNumeral 10 (narrowToInt ms) expiration ∧
        DelayMessage.amqpArguments cJsonPrint call.parameters call.payloadValues
          = some (some ⟨delayExchange, routingKey, expiration,
              cstr (cJsonPrint (delayItems req topic message))⟩) ∧
        ∀ back, cJsonParse (cstr (cJsonPrint (delayItems req topic message))) = some back →
          (∀ name, getObjectItem back name = (delayItems req topic message).lookup name) →
          mqttDelayMessage getObjectItem cJsonParse (cstr (cJsonPrint (delayItems req topic message)))
            = some (some (delayedReq req topic message)) := by
  have hrule := delaySelectRule_text hkey htext
  have hthis := delayRule_valid hplugin hparameters hrule
  rw [List.forall_mem_append] at hvalid
  have hall : ∀ call ∈ before ++ .addRule text :: after, call.Valid plugins := by
    rw [List.forall_mem_append, List.forall_mem_cons]
    exact ⟨hvalid.1, hthis, hvalid.2⟩
  obtain ⟨middle, -, hlistening⟩ := runs_listening plugins getObjectItem cJsonParse hrule
    (delayRule_known hplugin hparameters) rfl hall hstays hrun
  refine ⟨middle.messageListeners.length, ?_⟩
  intro req htopic hdirect hqos json topic message ms hparse hdelays calls hcalls
  have hfree : WildcardFree (tmqTopicSplit req.topic) := by
    rw [htopic]
    decide
  have hgets := hlistening.gets plugins getObjectItem cJsonParse rfl hdirect hfree hcalls
  have hmatches : filterMatches (delayRule routingKey).levels (tmqTopicSplit req.topic) = true := by
    rw [htopic]
    rfl
  have hread : (delayRule routingKey).readsPayload = true := rfl
  rw [Rule.Gets, hread, if_pos ⟨hmatches, fun _ => by simp [hparse]⟩] at hgets
  rcases hgets with ⟨-, call, hcall, hfilter⟩ | ⟨⟨filter, hfilter, -⟩, -⟩
  · have hzero : 0 ∉ routingKey := fun hmem => (hkey 0 hmem).2 rfl
    obtain ⟨hadaptor, hneeds, expiration, hnumeral, hsent⟩ := amqpArguments_delayRule getObjectItem
      cJsonParse cJsonPrint hplugin hzero hparse hdelays hcall
    refine ⟨call, expiration, hfilter, hadaptor,
      (handleEvent_eq_none_iff cJsonPrint _ _).mpr hneeds, hnumeral, hsent, ?_⟩
    intro back hback hitems
    refine mqttDelayMessage_delayItems getObjectItem cJsonParse hqos ?_ hitems
    rw [cstr_cstr]
    exact hback
  · cases hfilter

end Returns

def delayPayload : Bytes :=
  sourceText "\x7b\"delay\":5,\"topic\":\"a\",\"message\":\"b\"\x7d"

def delayBody : Bytes :=
  sourceText "\x7b\n\t\"topic\":\t\"a\",\n\t\"message\":\t\"b\",\n\t\"client_id\":\t\"c\"," ++
    sourceText "\n\t\"username\":\t\"u\",\n\t\"qos\":\t1,\n\t\"retain\":\t0\n\x7d"

def delayingReq : PublishReq Bytes := ⟨delayTopic, ⟨delayPayload, 1⟩, false, false, [117], [99]⟩

def readDelayJson (s : Bytes) : Option (List (Bytes × CJsonItem)) :=
  if s = delayPayload then
    some [(delayField, .number 5), (topicField, .string [97]), (messageField, .string [98])]
  else if s = delayBody then some (delayItems delayingReq [97] [98])
  else none

def delayPlugins : PluginsInfo Unit := fun name =>
  if name = delayPlugin then some ⟨(), delayParameters⟩ else none

/-- `01234567-89ab-cdef-0123-456789abcdef`. -/
def delayRoutingKey : Bytes := sourceText "01234567-89ab-cdef-0123-456789abcdef"

theorem delayTopic_valid : ValidFilter (tmqTopicSplit delayTopic) := by decide

def delayFilter : ValidTopicFilter := ⟨delayTopic, delayTopic_valid⟩

/-- Two clients subscribe to `$delay` after the rule was added, and one of them
leaves. -/
def oneLeavesDelay : List (EngineCall Bytes) :=
  [.topics (.addSubscription delayFilter [97] ⟨0, 1⟩) rfl,
    .topics (.addSubscription delayFilter [98] ⟨1, 0⟩) rfl,
    .topics (.removeSubscription delayFilter [97]) rfl]

theorem nodeStays_oneLeavesDelay {text : Bytes} (htext : delaySelectRule delayRoutingKey = some text) :
    NodeStays delayPlugins readDelayJson [delayTopic] ([] ++ [.addRule text]) oneLeavesDelay := by
  have hall : ∀ n < 4, ((delaySelectRule delayRoutingKey).all fun text =>
      (Run.runs (EngineCall.step delayPlugins readDelayJson) tmqRuleEngineInit
        ([] ++ [.addRule text] ++ oneLeavesDelay.take n)).all fun engine =>
          (engine.topics.root.valueAt [delayTopic]).isSome) = true := by
    decide +kernel
  intro earlier hearlier engine hrun
  have hnode := hall earlier.length (Nat.lt_succ_of_le hearlier.length_le)
  rw [htext, Option.all_some, ← List.prefix_iff_eq_take.mp hearlier, hrun] at hnode
  exact Option.isSome_iff_ne_none.mp hnode

/-- The message `b` for the topic `a` is to be sent with the expiration `5`. -/
theorem delay_message_reads_freed_uuid :
    ∃ text engine calls address call expiration, delaySelectRule delayRoutingKey = some text ∧
      Run.runs (EngineCall.step delayPlugins readDelayJson) tmqRuleEngineInit
        ([] ++ .addRule text :: oneLeavesDelay) = some engine ∧
      publishCalls (fun items name => items.lookup name) readDelayJson engine delayingReq
        = some calls ∧
      (address, call) ∈ calls ∧
      DelayMessage.handleEvent (fun _ => delayBody) call.parameters call.payloadValues = none ∧
      IsNumeral 10 5 expiration ∧
      DelayMessage.amqpArguments (fun _ => delayBody) call.parameters call.payloadValues
        = some (some ⟨delayExchange, delayRoutingKey, expiration, delayBody⟩) ∧
      mqttDelayMessage (fun items name => items.lookup name) readDelayJson delayBody
        = some (some ⟨[97], ⟨[98], 1⟩, false, false, [117], [99]⟩) := by
  have hsome : ((delaySelectRule delayRoutingKey).bind fun text =>
      (Run.runs (EngineCall.step delayPlugins readDelayJson) tmqRuleEngineInit
        ([] ++ .addRule text :: oneLeavesDelay)).bind fun engine =>
          publishCalls (fun items name => items.lookup name) readDelayJson engine
            delayingReq).isSome = true := by
    decide +kernel
  obtain ⟨calls, hcalls⟩ := Option.isSome_iff_exists.mp hsome
  obtain ⟨text, htext, hcalls⟩ := Option.bind_eq_some_iff.mp hcalls
  obtain ⟨engine, hrun, hcalls⟩ := Option.bind_eq_some_iff.mp hcalls
  have hkey : ∀ c ∈ delayRoutingKey, isColumnByte c = true ∧ c ≠ 0 := by decide +kernel
  have hpayload : readDelayJson delayPayload = some [(delayField, .number 5),
      (topicField, .string [97]), (messageField, .string [98])] := if_pos rfl
  have hne : delayBody ≠ delayPayload := by decide +kernel
  have hbody : readDelayJson delayBody = some (delayItems delayingReq [97] [98]) := by
    rw [readDelayJson, if_neg hne, if_pos rfl]
  have hzero : cstr delayBody = delayBody := by decide +kernel
  have hfive : truncated 5 = some 5 := by decide +kernel
  have hvalid : ∀ call ∈ [] ++ oneLeavesDelay, EngineCall.Valid delayPlugins call := by
    simp [oneLeavesDelay, EngineCall.Valid]
  obtain ⟨address, hreads⟩ := delay_message_reads_freed (fun items name => items.lookup name)
    readDelayJson (fun _ => delayBody) (if_pos rfl) rfl hkey text htext [] oneLeavesDelay hvalid
    (nodeStays_oneLeavesDelay htext) engine hrun
  obtain ⟨call, expiration, hfilter, -, hnone, hnumeral, hsent, hback⟩ := hreads delayingReq rfl rfl
    (by decide) _ [97] [98] 5 hpayload ⟨rfl, rfl, 5, rfl, hfive⟩ calls hcalls
  have hmem : (address, call) ∈ calls :=
    List.mem_of_mem_filter (hfilter ▸ List.mem_singleton_self (address, call))
  rw [hzero] at hsent hback
  exact ⟨text, engine, calls, address, call, expiration, htext, hrun, hcalls, hmem, hnone,
    hnumeral, hsent, hback _ hbody (fun _ => rfl)⟩

end TinyMqtt
