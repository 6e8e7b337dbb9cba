import TinyMqtt.Server.Traces

/-!
The stream of a publisher's messages to a session. What has come into the queue
of the session, what waits in the tasks of its IO context and what waits to be
published are one after the other in the order of the packets. A session keeps
its IO context, so its tasks are taken in the order in which they were queued.
-/

namespace TinyMqtt

open LinkedList

variable {π J : Type} [TmqString π]

/-! ### What the broker keeps -/

namespace Broker

variable {config : BrokerConfig π J} {broker next : Broker π} {label : Label π} {P : π → Prop}

def WillsCarry (P : π → Prop) (broker : Broker π) : Prop :=
  TinyMqtt.Carries P broker.validations broker.requests broker.heap (.leaf .new) []

theorem willsCarry_init : (init : Broker π).WillsCarry P :=
  ⟨nofun, nofun, nofun, Trie.all_leaf retains_new, nofun⟩

/-- A session stays in memory, on its IO context. -/
theorem heap_change (hchange : Change config broker label next) {s : Nat}
    {session : SessionRecord π} (hsession : broker.heap s = some session) :
    ∃ session', next.heap s = some session' ∧ session'.ioContextIdx = session.ioContextIdx := by
  have hset : ∀ {heap : Nat → Option (SessionRecord π)} {s' : Nat} {found changed : SessionRecord π},
      heap s' = some found → changed.ioContextIdx = found.ioContextIdx → heap s = some session →
      ∃ session', Function.update heap s' (some changed) s = some session' ∧
        session'.ioContextIdx = session.ioContextIdx := by
    intro heap s' found changed hfound hidx hsession
    rcases update_forward hfound hsession changed with ⟨rfl, hnew⟩ | hsame
    · exact ⟨changed, hnew, hidx⟩
    · exact ⟨session, hsame, rfl⟩
  have hput : ∀ {heap : Nat → Option (SessionRecord π)} {s' : Nat} {found : SessionRecord π}
      (new : SessionRecord π), heap s' = none → heap s = some found →
      Function.update heap s' (some new) s = some found := by
    intro heap s' found new hfree hfound
    exact (update_of_apply_ne (by simp [hfree, hfound]) _).trans hfound
  cases hchange with
  | subscribe hconn hgate hup hfound => exact hset hfound rfl hsession
  | unsubscribe hconn hgate hup hfound => exact hset hfound rfl hsession
  | startNew hrequests hconn habsent hfree => exact ⟨session, hput _ hfree hsession, rfl⟩
  | @restart run k s' req requests conn found topics hrequests hconn hregistered hfound hclosed
      hclean horder hremoved hfree =>
      obtain ⟨session', hsession', hidx⟩ := hset hfound
        (show SessionRecord.ioContextIdx { found with state := .closed, released := true }
          = found.ioContextIdx from rfl) hsession
      have hstillFree : Function.update broker.heap s'
          (some { found with state := .closed, released := true }) run.malloc = none :=
        (update_of_apply_ne (by simp [hfree, hfound]) _).trans hfree
      exact ⟨session', hput _ hstillFree hsession', hidx⟩
  | resume hrequests hconn hregistered hfound => exact hset hfound rfl hsession
  | closeKeep hrequests hfound => exact hset hfound rfl hsession
  | closeClean hrequests hfound => exact hset hfound rfl hsession
  | _ => exact ⟨session, hsession, rfl⟩

def OnIoContext (heap : Nat → Option (SessionRecord π)) (s n : Nat) : Prop :=
  ∃ session, heap s = some session ∧ n = session.ioContextIdx.toNat

theorem OnIoContext.change {s n : Nat} (h : OnIoContext broker.heap s n)
    (hchange : Change config broker label next) : OnIoContext next.heap s n := by
  obtain ⟨session, hsession, hn⟩ := h
  obtain ⟨session', hsession', hidx⟩ := heap_change hchange hsession
  exact ⟨session', hsession', by rw [hidx, hn]⟩

end Broker

/-! ### Tasks -/

namespace Broker

variable {config : BrokerConfig Stamped J} {broker next : Broker Stamped}
  {label : Label Stamped} {mine : Nat → Bool} {s : Nat}

theorem entering_eq_nil {task : BroadcastTask Stamped}
    (hother : task.retain = true ∨ mine task.message.message.stamp = false) :
    Server.entering mine s task = [] := by
  rw [List.eq_nil_iff_forall_not_mem]
  intro n hmem
  obtain ⟨rfl, hmine, hlive⟩ := Server.mem_entering hmem
  rcases hother with hretain | hlacks
  · rw [hretain] at hlive
    cases hlive
  · rw [hmine] at hlacks
    cases hlacks

theorem flatMap_entering_eq_nil {tasks : List (BroadcastTask Stamped)}
    (hothers : ∀ task ∈ tasks, task.retain = true ∨ mine task.message.message.stamp = false) :
    tasks.flatMap (Server.entering mine s) = [] :=
  List.flatMap_eq_nil_iff.mpr fun task htask => entering_eq_nil (hothers task htask)

/-- The will of a session is no message of the publisher. -/
theorem PublishesWill.others {session : SessionRecord Stamped} {op : SessionReqOp}
    {topics : Topics Stamped} {tasks : List (BroadcastTask Stamped)}
    {events : List (BrokerEvent Stamped)}
    (hwill : PublishesWill config broker session op topics tasks events)
    (hlacks : ∀ will, session.will = some will → mine will.message.stamp = false) :
    ∀ task ∈ tasks, task.retain = true ∨ mine task.message.message.stamp = false := by
  intro task htask
  cases hwill with
  | silent => cases htask
  | publish will req hop hfound hmessage hqueues =>
      right
      rw [(hqueues.message task htask).1, hmessage]
      exact hlacks will hfound

/-- Apart from publishes and broadcasts, a step queues no message of the
publisher. -/
theorem tasks_change (hwills : broker.WillsCarry fun p => mine p.stamp = false)
    (hchange : Change config broker label next) (hpublish : ∀ req, label ≠ .publish req)
    (hbroadcast : ∀ ioContext, label ≠ .broadcast ioContext) :
    ∃ tasks, next.broadcastTasks = broker.broadcastTasks ++ tasks ∧
      ∀ task ∈ tasks, task.retain = true ∨ mine task.message.message.stamp = false := by
  cases hchange with
  | closeKeep hrequests hsession hkeep hwill =>
      exact ⟨_, rfl, hwill.others fun will => hwills.wills _ _ will hsession⟩
  | closeClean hrequests hsession hclean hwill =>
      exact ⟨_, rfl, hwill.others fun will => hwills.wills _ _ will hsession⟩
  | addTopics =>
      refine ⟨_, rfl, ?_⟩
      intro task htask
      obtain ⟨message, -, rfl⟩ := List.mem_map.mp htask
      exact .inl rfl
  | publish => exact (hpublish _ rfl).elim
  | broadcast => exact (hbroadcast _ rfl).elim
  | _ => exact ⟨[], (List.append_nil _).symm, nofun⟩

/-- Tasks are queued for the IO contexts of the sessions they name, and name a
session as often as it was found. -/
structure Routes (heap : Nat → Option (SessionRecord Stamped)) (s found : Nat)
    (tasks : List (BroadcastTask Stamped)) : Prop where
  routed : ∀ task ∈ tasks, ∀ entry ∈ task.subscribers,
    OnIoContext heap entry.session task.ioContext
  counted : (tasks.flatMap BroadcastTask.subscribers).countP (fun entry => entry.session = s) = found

theorem mapM_broadcastInfo {entries : List (Sigma fun _ : Bytes => SubscribeInfo)}
    {infos : List (SessionRecord Stamped × BroadcastEntry)}
    (hinfos : entries.mapM (fun entry => broker.broadcastInfo entry.2) = some infos) :
    (∀ info ∈ infos, broker.heap info.2.session = some info.1) ∧
      (infos.map Prod.snd).countP (fun entry => entry.session = s)
        = (entries.filter fun entry => entry.2.session = s).length := by
  induction entries generalizing infos with
  | nil =>
      obtain rfl := Option.some.inj hinfos
      exact ⟨nofun, rfl⟩
  | cons entry entries ih =>
      simp only [List.mapM_cons, Option.bind_eq_bind, Option.bind_eq_some_iff, Option.pure_def,
        Option.some.injEq] at hinfos
      obtain ⟨info, hinfo, rest, hrest, rfl⟩ := hinfos
      obtain ⟨hfound, hcount⟩ := ih hrest
      simp only [broadcastInfo, Option.bind_eq_bind, Option.bind_eq_some_iff] at hinfo
      obtain ⟨session, hsession, hinfo⟩ := hinfo
      obtain rfl := Option.some.inj hinfo
      constructor
      · exact List.forall_mem_cons.mpr ⟨hsession, hfound⟩
      · rw [List.map_cons, List.countP_cons, hcount, List.filter_cons]
        by_cases hs : entry.2.session = s <;> simp [hs]

theorem mqttBroadcast_routes {topic : Bytes} {message : MqttMessage Stamped}
    {subscribers : SubscribeMap}
    (hbroadcast : mqttBroadcast config topic message broker subscribers = some next) :
    ∃ tasks, next.broadcastTasks = broker.broadcastTasks ++ tasks ∧ next.heap = broker.heap ∧
      Routes broker.heap s (subscribers.entries.filter fun entry => entry.2.session = s).length
        tasks := by
  simp only [mqttBroadcast, Option.bind_eq_bind, Option.bind_eq_some_iff] at hbroadcast
  obtain ⟨infos, hinfos, hbroadcast⟩ := hbroadcast
  obtain ⟨hfound, hcount⟩ := @mapM_broadcastInfo broker s _ _ hinfos
  split at hbroadcast
  · cases hbroadcast
  · rename_i hbound
    obtain rfl := Option.some.inj hbroadcast
    refine ⟨_, rfl, rfl, ?_, ?_⟩
    · intro task htask entry hentry
      obtain ⟨i, -, rfl⟩ := List.mem_map.mp htask
      obtain ⟨info, hinfo, rfl⟩ := List.mem_map.mp hentry
      obtain ⟨hmem, hidx⟩ := List.mem_filter.mp hinfo
      exact ⟨info.1, hfound info hmem, (of_decide_eq_true hidx).symm⟩
    · rw [List.flatMap_map, ← List.map_flatMap, ← hcount]
      exact ((perm_byIoContext hbound).map Prod.snd).countP_eq _

theorem Routes.append {heap : Nat → Option (SessionRecord Stamped)} {found found' : Nat}
    {first second : List (BroadcastTask Stamped)} (hfirst : Routes heap s found first)
    (hsecond : Routes heap s found' second) : Routes heap s (found + found') (first ++ second) := by
  constructor
  · intro task htask
    rcases List.mem_append.mp htask with hmem | hmem
    · exact hfirst.routed task hmem
    · exact hsecond.routed task hmem
  · rw [List.flatMap_append, List.countP_append, hfirst.counted, hsecond.counted]

theorem foldlM_mqttBroadcast_routes {topic : Bytes} {message : MqttMessage Stamped}
    {tables : List SubscribeMap}
    (hbroadcast : tables.foldlM (mqttBroadcast config topic message) broker = some next) :
    ∃ tasks, next.broadcastTasks = broker.broadcastTasks ++ tasks ∧
      Routes broker.heap s (tables.flatMap fun subscribers =>
        subscribers.entries.filter fun entry => entry.2.session = s).length tasks := by
  induction tables generalizing broker with
  | nil =>
      obtain rfl := Option.some.inj hbroadcast
      exact ⟨[], (List.append_nil _).symm, nofun, rfl⟩
  | cons subscribers tables ih =>
      rw [List.foldlM_cons] at hbroadcast
      obtain ⟨middle, hfirst, hrest⟩ := Option.bind_eq_some_iff.mp hbroadcast
      obtain ⟨tasks, htasks, hheap, hroutes⟩ := @mqttBroadcast_routes _ _ _ _ s _ _ _ hfirst
      obtain ⟨tasks', htasks', hroutes'⟩ := ih hrest
      rw [hheap] at hroutes'
      refine ⟨tasks ++ tasks', by rw [htasks', htasks, List.append_assoc], ?_⟩
      rw [List.flatMap_cons, List.length_append]
      exact hroutes.append hroutes'

/-- A publish queues its message for the session at most as often as it finds
it. -/
theorem topicsPublish_routes {req : PublishReq Stamped}
    (hpublish : broker.topicsPublish config req = some next) :
    ∃ tasks, next.broadcastTasks = broker.broadcastTasks ++ tasks ∧
      (∀ task ∈ tasks, task.message.message.stamp = req.message.message.stamp) ∧
      Routes broker.heap s ((matchedTables (tmqTopicsPublish config.cJsonParse broker.topicsTree
        req).2.1).flatMap fun subscribers =>
          subscribers.entries.filter fun entry => entry.2.session = s).length tasks := by
  obtain ⟨tasks, htasks, hroutes⟩ := @foldlM_mqttBroadcast_routes _ _ _ _ s _ _ _ hpublish
  obtain ⟨tasks', shares, rfl, hqueues⟩ := topicsPublish_cases hpublish
  obtain rfl := List.append_cancel_left (show broker.broadcastTasks ++ tasks' = _ from htasks)
  refine ⟨tasks', rfl, ?_, hroutes⟩
  intro task htask
  rw [(hqueues.message task htask).1]
  rfl

theorem length_flatMap_entering (tasks : List (BroadcastTask Stamped)) :
    (tasks.flatMap (Server.entering mine s)).length
      ≤ (tasks.flatMap BroadcastTask.subscribers).countP (fun entry => entry.session = s) := by
  induction tasks with
  | nil => rfl
  | cons task tasks ih =>
      rw [List.flatMap_cons, List.length_append, List.flatMap_cons, List.countP_append]
      refine Nat.add_le_add ?_ ih
      rw [Server.entering, List.length_filterMap_eq_countP]
      refine List.countP_mono_left fun entry _ hsome => ?_
      obtain ⟨n, hn⟩ := Option.isSome_iff_exists.mp hsome
      exact decide_eq_true (Server.stampFor_eq_some hn).1

end Broker

/-! ### Publish requests -/

namespace Server

variable {config : BrokerConfig π J} {server next : Server π} {s : Nat}

omit [TmqString π] in
theorem runFlow_publishes {run : Session π → Option (Session π)}
    (hrun : server.runFlow config s run = some next) :
    ∃ flow after more, server.flows s = some flow ∧ run flow = some after ∧
      next.publishes = server.publishes ++ more ∧ (more.map PublishReq.message).Sublist
        ((after.passed.drop flow.passed.length).map fun passed => passed.2.1) := by
  obtain ⟨session, flow, after, hafter, -, hflow, -, hposts⟩ := runFlow_posts hrun
  refine ⟨flow, after, _, hflow, hafter, hposts, ?_⟩
  rw [List.map_map]
  exact List.filter_sublist.map _

/-- The events that pass a message on. -/
def passes : Event π → Bool
  | .onPublish _ _ => true
  | _ => false

omit [TmqString π] in
theorem length_passed_handlePublish (flow : Session π) (pkt : PublishPkt π) :
    ((tmqSessionHandlePublish flow pkt).passed.drop flow.passed.length).length ≤ 1 := by
  unfold tmqSessionHandlePublish
  split
  · split
    · simp
    · simp [Session.record, Session.passed]
  · simp [Session.record, Session.passed]

/-- An event passes on at most the message of its PUBLISH. -/
theorem handleEvent_publishes (h : server.Carries fun _ => True) {k : Nat} {malloc : Addr}
    {event : Event π} (hhandle : server.handleEvent config k s malloc event = some next) :
    ∃ more, next.publishes = server.publishes ++ more ∧
      more.length ≤ [event].countP passes ∧
      ∀ req ∈ more, ∃ upstream pkt, event = .onPublish upstream pkt ∧
        req.message.message = pkt.payload := by
  by_cases hsend : ∃ pkt, event = .send pkt
  · obtain ⟨pkt, rfl⟩ := hsend
    obtain rfl := Option.some.inj hhandle
    exact ⟨[], by rw [(server.write_frame k [pkt]).2.2, List.append_nil], Nat.zero_le _, nofun⟩
  · have hsend' : ∀ pkt, event ≠ .send pkt := fun pkt heq => hsend ⟨pkt, heq⟩
    rw [handleEvent_of_ne_send hsend'] at hhandle
    obtain ⟨flow, after, more, hcurrent, hafter, hmore, hsublist⟩ := runFlow_publishes hhandle
    split at hafter
    · rename_i hfree
      obtain ⟨queue, hqueue, -⟩ := h.flows s flow hcurrent
      obtain ⟨-, -, -, -, -, -, -, hpassed⟩ := handleEvent_progress hqueue hsend' (by
        rintro upstream packetId acked rfl hacked
        simpa [mallocFree, hacked] using hfree) hafter
      have hmessage : ∀ req ∈ more, ∃ upstream pkt, event = .onPublish upstream pkt ∧
          req.message.message = pkt.payload := by
        intro req hreq
        obtain ⟨passed, hmem, hsame⟩ :=
          List.mem_map.mp (hsublist.subset (List.mem_map_of_mem hreq))
        rw [← hsame]
        exact hpassed passed hmem
      refine ⟨more, hmore, ?_, hmessage⟩
      have hlength := hsublist.length_le
      rw [List.length_map, List.length_map] at hlength
      cases event with
      | onPublish upstream pkt =>
          obtain rfl := Option.some.inj hafter
          exact hlength.trans (length_passed_handlePublish flow pkt)
      | _ =>
          have hnone : more = [] := by
            rw [List.eq_nil_iff_forall_not_mem]
            intro req hreq
            obtain ⟨upstream, pkt, hevent, -⟩ := hmessage req hreq
            cases hevent
          exact hnone ▸ Nat.zero_le _
    · cases hafter

theorem handleEvents_publishes {k : Nat} {malloc : Addr} {events : List (Event π)}
    (h : server.Carries fun _ => True)
    (hevents : ∀ event ∈ events, EventBrings (fun _ => True) event)
    (hhandle : events.foldlM (Server.handleEvent config k s malloc) server = some next) :
    ∃ more, next.publishes = server.publishes ++ more ∧ more.length ≤ events.countP passes ∧
      ∀ req ∈ more, ∃ upstream pkt, .onPublish upstream pkt ∈ events ∧
        req.message.message = pkt.payload := by
  induction events generalizing server with
  | nil =>
      obtain rfl := Option.some.inj hhandle
      exact ⟨[], (List.append_nil _).symm, Nat.zero_le _, nofun⟩
  | cons event events ih =>
      rw [List.foldlM_cons] at hhandle
      obtain ⟨middle, hfirst, hrest⟩ := Option.bind_eq_some_iff.mp hhandle
      obtain ⟨hevent, hothers⟩ := List.forall_mem_cons.mp hevents
      obtain ⟨more, hmore, hlength, hmessage⟩ := handleEvent_publishes h hfirst
      obtain ⟨more', hmore', hlength', hmessage'⟩ := ih (h.handleEvent hevent hfirst) hothers hrest
      refine ⟨more ++ more', by rw [hmore', hmore, List.append_assoc], ?_, ?_⟩
      · rw [List.length_append]
        exact (Nat.add_le_add hlength hlength').trans (@List.countP_append _ passes [event] _).ge
      · intro req hreq
        rcases List.mem_append.mp hreq with hfirst | hlater
        · obtain ⟨upstream, pkt, rfl, hpayload⟩ := hmessage req hfirst
          exact ⟨upstream, pkt, List.mem_cons_self, hpayload⟩
        · obtain ⟨upstream, pkt, hevent, hpayload⟩ := hmessage' req hlater
          exact ⟨upstream, pkt, List.mem_cons_of_mem _ hevent, hpayload⟩

omit [TmqString π] in
theorem countP_passes_publishFlowEvents (upstream : Upstream) (pkt : Packet π) :
    (publishFlowEvents upstream pkt).countP passes ≤ 1 := by
  cases pkt with
  | publish pkt =>
      rw [publishFlowEvents, List.countP_append, List.countP_map]
      cases publishAck pkt <;> simp [passes]
  | _ => simp [publishFlowEvents, passes]

omit [TmqString π] in
theorem eq_publish_of_onPublish {upstream upstream' : Upstream} {pkt : Packet π}
    {publish : PublishPkt π} (hevent : .onPublish upstream' publish ∈ publishFlowEvents upstream pkt) :
    pkt = .publish publish := by
  cases pkt with
  | publish pkt =>
      have hsame : upstream' = upstream ∧ publish = pkt := by
        simpa [publishFlowEvents] using hevent
      rw [hsame.2]
  | _ => simp [publishFlowEvents] at hevent

/-- A packet passes on at most the message of a PUBLISH. -/
theorem receivePacket_publishes (h : server.Carries fun _ => True) {k : Nat} {pkt : Packet π}
    {malloc : Addr} (hreceive : server.receivePacket config k pkt malloc = some next) :
    ∃ more, next.publishes = server.publishes ++ more ∧ more.length ≤ 1 ∧
      ∀ req ∈ more, ∃ publish, pkt = .publish publish ∧ req.message.message = publish.payload := by
  simp only [receivePacket, Option.bind_eq_bind, Option.bind_eq_some_iff] at hreceive
  obtain ⟨broker, -, conn, -, hreceive⟩ := hreceive
  split at hreceive
  · obtain rfl := Option.some.inj hreceive
    exact ⟨[], (List.append_nil _).symm, Nat.zero_le _, by simp⟩
  · split at hreceive
    · split at hreceive
      · cases hreceive
      · obtain ⟨more, hmore, hlength, hmessage⟩ := handleEvents_publishes h
          (eventBrings_publishFlowEvents fun _ _ => trivial) hreceive
        refine ⟨more, hmore, hlength.trans (countP_passes_publishFlowEvents _ pkt), ?_⟩
        intro req hreq
        obtain ⟨upstream, publish, hevent, hpayload⟩ := hmessage req hreq
        exact ⟨publish, eq_publish_of_onPublish hevent, hpayload⟩
    · cases hreceive

theorem receivePacket_change {k : Nat} {pkt : Packet π} {malloc : Addr}
    (hreceive : server.receivePacket config k pkt malloc = some next) :
    Broker.Change config server.broker (.packet k) next.broker := by
  simp only [receivePacket, Option.bind_eq_bind, Option.bind_eq_some_iff] at hreceive
  obtain ⟨broker, hpacket, conn, -, hreceive⟩ := hreceive
  split at hreceive
  · obtain rfl := Option.some.inj hreceive
    exact Broker.receivePacket_cases hpacket
  · split at hreceive
    · split at hreceive
      · cases hreceive
      · rw [handleEvents_broker hreceive]
        exact .unchanged _
    · cases hreceive

theorem follow_publishes {nextPacketId : UInt16} {events : List (BrokerEvent π)}
    (h : server.Carries fun _ => True)
    (hfollow : events.foldlM (Server.follow config nextPacketId) server = some next) :
    next.publishes = server.publishes := by
  induction events generalizing server with
  | nil =>
      obtain rfl := Option.some.inj hfollow
      rfl
  | cons event events ih =>
      rw [List.foldlM_cons] at hfollow
      obtain ⟨middle, hfirst, hrest⟩ := Option.bind_eq_some_iff.mp hfollow
      have hmiddle : middle.Carries fun _ => True := by
        refine @Carries.follow _ _ _ _ config server middle nextPacketId [event] h ?_
        rw [List.foldlM_cons, hfirst]
        rfl
      rw [ih hmiddle hrest]
      cases event with
      | sessionStart s =>
          obtain ⟨flow, after, more, hflow, hafter, hmore, hsublist⟩ := runFlow_publishes hfirst
          obtain ⟨queue, hqueue, -⟩ := h.flows s flow hflow
          obtain ⟨-, -, -, -, -, hframe⟩ := tmqSessionStart_progress hqueue hafter
          rw [hframe.passed, List.map_nil, List.sublist_nil, List.map_eq_nil_iff] at hsublist
          rw [hmore, hsublist, List.append_nil]
      | _ =>
          obtain rfl := Option.some.inj hfirst
          rfl

theorem handle_change {label : Broker.Label π} {nextPacketId : UInt16}
    (h : server.Carries fun _ => True)
    (hhandle : server.handle config label nextPacketId = some next) :
    Broker.Change config server.broker label next.broker ∧ next.publishes = server.publishes := by
  obtain ⟨broker, hstep, hfollow⟩ := Option.bind_eq_some_iff.mp hhandle
  have hchanged : (⟨broker, server.flows, server.written, server.publishes⟩ :
      Server π).Carries fun _ => True :=
    ⟨Broker.carries_step (fun _ _ => trivial) hstep h.broker label.brings_true, h.flows,
      h.publishes, h.written⟩
  have hpublishes := follow_publishes hchanged hfollow
  rw [follow_broker hfollow]
  exact ⟨Broker.step_change hstep, hpublishes⟩

theorem deliverAll_publishes {task : BroadcastTask π} {mallocs : Nat → Addr}
    {entries : List (BroadcastEntry × Nat)} (h : server.Carries fun _ => True)
    (hdeliver : entries.foldlM (Server.deliverTo config task mallocs) server = some next) :
    next.publishes = server.publishes := by
  induction entries generalizing server with
  | nil =>
      obtain rfl := Option.some.inj hdeliver
      rfl
  | cons entry entries ih =>
      rw [List.foldlM_cons] at hdeliver
      obtain ⟨middle, hfirst, hrest⟩ := Option.bind_eq_some_iff.mp hdeliver
      rw [ih (h.deliverTo (fun _ _ => trivial) trivial hfirst) hrest]
      obtain ⟨flow, after, more, hflow, hafter, hmore, hsublist⟩ := runFlow_publishes hfirst
      obtain ⟨queue, hqueue, -⟩ := h.flows _ flow hflow
      have hframe : SenderFrame flow after := by
        split at hafter
        · cases hafter
        · rename_i hfree
          exact tmqSessionPublish_frame hqueue (Option.not_isSome_iff_eq_none.mp hfree) hafter
      rw [hframe.passed, List.map_nil, List.sublist_nil, List.map_eq_nil_iff] at hsublist
      rw [hmore, hsublist, List.append_nil]

end Server

/-! ### The stream -/

namespace Server

variable {config : BrokerConfig Stamped J} {mine : Nat → Bool} {s now : Nat}
  {server next : Server Stamped} {entered : List Nat}

def unpublished (mine : Nat → Bool) (publishes : List (PublishReq Stamped)) : List Nat :=
  (publishes.map fun req => req.message.message.stamp).filter mine

/-- The messages that came into the queue and those on their way to it are in
the order of their packets, which are all in the past. -/
structure Streams (mine : Nat → Bool) (s : Nat) (server : Server Stamped) (entered : List Nat)
    (now : Nat) : Prop where
  ascending : (entered ++ server.broker.broadcastTasks.flatMap (entering mine s) ++
    unpublished mine server.publishes).Pairwise (· < ·)
  past : ∀ n ∈ entered ++ server.broker.broadcastTasks.flatMap (entering mine s) ++
    unpublished mine server.publishes, n < now
  routed : ∀ task ∈ server.broker.broadcastTasks, entering mine s task ≠ [] →
    Broker.OnIoContext server.broker.heap s task.ioContext
  wills : server.broker.WillsCarry fun p => mine p.stamp = false

omit [TmqString π] in
theorem pairwise_of_length_le_one {l : List Nat} (hlength : l.length ≤ 1) : l.Pairwise (· < ·) := by
  match l with
  | [] => exact .nil
  | [n] => exact List.pairwise_singleton _ n
  | _ :: _ :: _ => simp at hlength

theorem streams_init : Streams mine s init [] 0 :=
  ⟨.nil, nofun, nofun, Broker.willsCarry_init⟩

/-- A step of the broker that queues no message of the publisher. -/
theorem Streams.change (h : Streams mine s server entered now) {label : Broker.Label Stamped}
    (hchange : Broker.Change config server.broker label next.broker)
    (hpublish : ∀ req, label ≠ .publish req) (hbroadcast : ∀ ioContext, label ≠ .broadcast ioContext)
    (hconnect : ∀ k req fails, label = .connect k req fails →
      req.WillHas fun p => mine p.stamp = false)
    {more : List (PublishReq Stamped)} (hmore : next.publishes = server.publishes ++ more)
    (hlength : more.length ≤ 1) (hstamp : ∀ req ∈ more, req.message.message.stamp = now) :
    Streams mine s next entered (now + 1) := by
  obtain ⟨tasks, htasks, hothers⟩ :=
    Broker.tasks_change h.wills hchange hpublish hbroadcast
  have hsame : next.broker.broadcastTasks.flatMap (entering mine s)
      = server.broker.broadcastTasks.flatMap (entering mine s) := by
    rw [htasks, List.flatMap_append, Broker.flatMap_entering_eq_nil hothers, List.append_nil]
  have hlast : ∀ n ∈ unpublished mine more, n = now := by
    intro n hn
    obtain ⟨req, hreq, rfl⟩ := List.mem_map.mp (List.mem_of_mem_filter hn)
    exact hstamp req hreq
  have hone : (unpublished mine more).length ≤ 1 := by
    refine (List.length_filter_le _ _).trans ?_
    rw [List.length_map]
    exact hlength
  have hunpublished : unpublished mine next.publishes
      = unpublished mine server.publishes ++ unpublished mine more := by
    rw [unpublished, hmore, List.map_append, List.filter_append]
    rfl
  refine ⟨?_, ?_, ?_, Broker.carries_wills h.wills hconnect hchange⟩
  · rw [hsame, hunpublished, ← List.append_assoc, List.pairwise_append]
    refine ⟨h.ascending, pairwise_of_length_le_one hone, ?_⟩
    · intro n hn m hm
      rw [hlast m hm]
      exact h.past n hn
  · rw [hsame, hunpublished, ← List.append_assoc]
    intro n hn
    rcases List.mem_append.mp hn with hold | hnew
    · exact (h.past n hold).trans (Nat.lt_succ_self now)
    · rw [hlast n hnew]
      exact Nat.lt_succ_self now
  · rw [htasks]
    intro task htask hentering
    rcases List.mem_append.mp htask with hold | hnew
    · exact (h.routed task hold hentering).change hchange
    · exact (hentering (Broker.entering_eq_nil (hothers task hnew))).elim

/-- A message of the publisher finds the session once and moves on into a task
for it. -/
theorem Streams.publish (h : Streams mine s server entered now)
    (hfound : ∀ req publishes, server.publishes = req :: publishes →
      mine req.message.message.stamp → Observed.FoundOnce config s server req)
    (hhandle : server.handlePublishReq config = some next) :
    Streams mine s next entered (now + 1) := by
  unfold handlePublishReq at hhandle
  split at hhandle
  · cases hhandle
  · rename_i req publishes hpublishes
    obtain ⟨broker, hpublish, hnext⟩ := Option.bind_eq_some_iff.mp hhandle
    obtain rfl := Option.some.inj hnext
    have hstep : server.broker.step config (.publish req) = some broker := hpublish
    have hchange := Broker.step_change hstep
    obtain ⟨tasks, htasks, hstamp, hroutes⟩ := @Broker.topicsPublish_routes _ _ _ _ s _ hpublish
    have hmem : ∀ n ∈ tasks.flatMap (entering mine s),
        n = req.message.message.stamp ∧ mine n = true := by
      intro n hn
      obtain ⟨task, htask, hentering⟩ := List.mem_flatMap.mp hn
      obtain ⟨rfl, hmine, -⟩ := mem_entering hentering
      exact ⟨hstamp task htask, hmine⟩
    have hmoved : (tasks.flatMap (entering mine s)).Sublist (unpublished mine [req]) := by
      cases hlist : tasks.flatMap (entering mine s) with
      | nil => exact List.nil_sublist _
      | cons n others =>
          obtain ⟨rfl, hmine⟩ := hmem n (by simp [hlist])
          have hlength := @Broker.length_flatMap_entering mine s tasks
          rw [hroutes.counted, hlist, List.length_cons] at hlength
          have hone := hlength.trans (hfound req publishes hpublishes hmine)
          obtain rfl : others = [] := List.eq_nil_of_length_eq_zero (by omega)
          simp [unpublished, hmine]
    have hsublist : (entered ++ broker.broadcastTasks.flatMap (entering mine s) ++
        unpublished mine publishes).Sublist (entered ++ server.broker.broadcastTasks.flatMap
          (entering mine s) ++ unpublished mine server.publishes) := by
      have hsplit : unpublished mine server.publishes
          = unpublished mine [req] ++ unpublished mine publishes := by
        rw [hpublishes, unpublished, unpublished, unpublished, ← List.filter_append,
          ← List.map_append]
        rfl
      rw [htasks, List.flatMap_append, hsplit, ← List.append_assoc, ← List.append_assoc]
      exact (hmoved.append_left _).append_right _
    refine ⟨h.ascending.sublist hsublist, ?_, ?_, Broker.carries_wills h.wills (by nofun) hchange⟩
    · intro n hn
      exact (h.past n (hsublist.subset hn)).trans (Nat.lt_succ_self now)
    · dsimp only
      rw [htasks]
      intro task htask hentering
      rcases List.mem_append.mp htask with hold | hnew
      · exact (h.routed task hold hentering).change hchange
      · obtain ⟨n, hn⟩ := List.exists_mem_of_ne_nil _ hentering
        obtain ⟨entry, hentry, hstampFor⟩ := List.mem_filterMap.mp hn
        obtain ⟨rfl, -⟩ := stampFor_eq_some hstampFor
        exact (hroutes.routed task hnew entry hentry).change hchange

/-- The tasks for the session are taken in the order in which they were
queued. -/
theorem Streams.take (h : Streams mine s server entered now) {ioContext : Nat}
    {task : BroadcastTask Stamped} {rest : List (BroadcastTask Stamped)}
    (htake : Mailbox.take? BroadcastTask.ioContext ioContext server.broker.broadcastTasks
      = some (task, rest)) :
    entering mine s task ++ rest.flatMap (entering mine s)
      = server.broker.broadcastTasks.flatMap (entering mine s) := by
  obtain ⟨before, after, htasks, hrest, howner, hbefore⟩ := Mailbox.take?_eq_some htake
  dsimp only at htasks hrest howner hbefore
  rw [htasks, hrest, List.flatMap_append, List.flatMap_append, List.flatMap_cons]
  by_cases hentering : entering mine s task = []
  · rw [hentering, List.nil_append, List.nil_append]
  · -- the tasks before it are those of other IO contexts
    have hnone : before.flatMap (entering mine s) = [] := by
      rw [List.flatMap_eq_nil_iff]
      intro other hother
      by_contra hfound
      obtain ⟨session, hsession, hio⟩ := h.routed task (by simp [htasks]) hentering
      obtain ⟨session', hsession', hio'⟩ := h.routed other (by simp [htasks, hother]) hfound
      obtain rfl := Option.some.inj (hsession.symm.trans hsession')
      exact hbefore other hother (by rw [hio', ← hio, howner])
    rw [hnone, List.nil_append, List.nil_append]

theorem Streams.broadcast (h : Streams mine s server entered now) {ioContext : Nat}
    {task : BroadcastTask Stamped} {rest : List (BroadcastTask Stamped)}
    (htake : Mailbox.take? BroadcastTask.ioContext ioContext server.broker.broadcastTasks
      = some (task, rest)) (hrest : next.broker.broadcastTasks = rest)
    (hchange : Broker.Change config server.broker (.broadcast ioContext) next.broker)
    (hpublishes : next.publishes = server.publishes) :
    Streams mine s next (entered ++ entering mine s task) (now + 1) := by
  have hstream : entered ++ entering mine s task ++
      next.broker.broadcastTasks.flatMap (entering mine s) ++ unpublished mine next.publishes
      = entered ++ server.broker.broadcastTasks.flatMap (entering mine s) ++
        unpublished mine server.publishes := by
    rw [hrest, hpublishes, List.append_assoc entered, h.take htake]
  refine ⟨?_, ?_, ?_, Broker.carries_wills h.wills (by nofun) hchange⟩
  · rw [hstream]
    exact h.ascending
  · rw [hstream]
    intro n hn
    exact (h.past n hn).trans (Nat.lt_succ_self now)
  · intro other hother hentering
    obtain ⟨before, after, htasks, hsplit, -⟩ := Mailbox.take?_eq_some htake
    dsimp only at htasks hsplit
    have hold : other ∈ server.broker.broadcastTasks := by
      rw [hrest, hsplit, List.mem_append] at hother
      rw [htasks]
      simp only [List.mem_append, List.mem_cons]
      tauto
    exact (h.routed other hold hentering).change hchange

end Server

end TinyMqtt
