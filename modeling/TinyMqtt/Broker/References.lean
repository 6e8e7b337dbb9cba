import TinyMqtt.Broker.Sessions
import TinyMqtt.Lib.Shares

/-!
The references that sessions hold on connections. An open session holds one on
its connection, and so does every subscriber of a broadcast task that was
marked open. A close and a broadcast release the connection that the session
has by then: the references are matched in the runs in which it is still the
one that was shared.
-/

namespace TinyMqtt

variable {π J : Type}

/-- A reference of the second, a session, to the first, a connection. -/
abbrev ConnRef := Nat × Nat

def BrokerEvent.move : BrokerEvent π → Option (Shares.Move ConnRef)
  | .share k s => some (.share (k, s))
  | .release k s => some (.release (k, s))
  | _ => none

/-- The shares and releases of a log. -/
def movesOf (log : List (BrokerEvent π)) : List (Shares.Move ConnRef) :=
  log.filterMap BrokerEvent.move

/-- The subscribers of tasks that are marked open, by session. -/
def openSessions (tasks : List (BroadcastTask π)) : List Nat :=
  (tasks.flatMap BroadcastTask.subscribers).filterMap fun entry =>
    if entry.isSessionClosed then none else some entry.session

/-- The releases that are still to come: one of an open session, and one of
each of its open subscribers. -/
def dueOf (heap : Nat → Option (SessionRecord π)) (tasks : List (BroadcastTask π)) (ref : ConnRef) :
    Nat :=
  match heap ref.2 with
  | none => 0
  | some session =>
      if session.conn = ref.1 then
        (if session.state = .opened then 1 else 0) + (openSessions tasks).count ref.2
      else 0

/-- The shares of the log suffice for what is due, and every queued subscriber
is a session in memory. -/
structure Accounted (heap : Nat → Option (SessionRecord π)) (tasks : List (BroadcastTask π))
    (log : List (BrokerEvent π)) : Prop where
  covers : Shares.Covers (movesOf log) (dueOf heap tasks)
  known : ∀ task ∈ tasks, ∀ entry ∈ task.subscribers, heap entry.session ≠ none

theorem movesOf_append (log events : List (BrokerEvent π)) :
    movesOf (log ++ events) = movesOf log ++ movesOf events :=
  List.filterMap_append

theorem movesOf_shares (shares : List ConnRef) :
    movesOf (shares.map fun ref => (.share ref.1 ref.2 : BrokerEvent π))
      = shares.map .share := by
  induction shares with
  | nil => rfl
  | cons ref shares ih => simpa [movesOf, BrokerEvent.move] using ih

theorem movesOf_releases (releases : List ConnRef) :
    movesOf (releases.map fun ref => (.release ref.1 ref.2 : BrokerEvent π))
      = releases.map .release := by
  induction releases with
  | nil => rfl
  | cons ref releases ih => simpa [movesOf, BrokerEvent.move] using ih

theorem openSessions_append (first second : List (BroadcastTask π)) :
    openSessions (first ++ second) = openSessions first ++ openSessions second := by
  simp [openSessions]

/-- The connections of open subscribers, counted. -/
theorem count_openConns (heap : Nat → Option (SessionRecord π)) (entries : List BroadcastEntry)
    (ref : ConnRef) :
    (Broker.openConns heap entries).count ref
      = match heap ref.2 with
        | none => 0
        | some session => if session.conn = ref.1 then
            (entries.filterMap fun entry =>
              if entry.isSessionClosed then none else some entry.session).count ref.2
          else 0 := by
  obtain ⟨k, s⟩ := ref
  induction entries with
  | nil => cases heap s <;> simp [Broker.openConns]
  | cons entry entries ih =>
      unfold Broker.openConns at ih ⊢
      rw [List.filterMap_cons, List.filterMap_cons]
      cases entry.isSessionClosed with
      | true => exact ih
      | false =>
          by_cases hs : entry.session = s
          · subst hs
            cases hheap : heap entry.session with
            | none =>
                rw [hheap] at ih
                exact ih
            | some session =>
                rw [hheap] at ih
                by_cases hconn : session.conn = k <;> simp_all
          · cases hheap : heap entry.session <;> cases hfound : heap s <;> simp_all

/-! ### The parts of a step -/

namespace Accounted

variable {heap : Nat → Option (SessionRecord π)} {tasks : List (BroadcastTask π)}
  {log : List (BrokerEvent π)} {s : Nat} {session changed : SessionRecord π}

theorem init : Accounted (fun _ => none) [] ([] : List (BrokerEvent π)) :=
  ⟨Shares.covers_nil, nofun⟩

/-- Events without a share or a release. -/
theorem silent (h : Accounted heap tasks log) {events : List (BrokerEvent π)}
    (hsilent : movesOf events = []) : Accounted heap tasks (log ++ events) := by
  refine ⟨?_, h.known⟩
  rw [movesOf_append, hsilent, List.append_nil]
  exact h.covers

/-- A message is queued for the subscribers it found. -/
theorem queue (h : Accounted heap tasks log) {new : List (BroadcastTask π)} {shares : List ConnRef}
    (hshares : ∀ ref, (Broker.openConns heap (new.flatMap BroadcastTask.subscribers)).count ref
      ≤ shares.count ref)
    (hknown : ∀ task ∈ new, ∀ entry ∈ task.subscribers, heap entry.session ≠ none) :
    Accounted heap (tasks ++ new) (log ++ shares.map fun ref => .share ref.1 ref.2) := by
  constructor
  · rw [movesOf_append, movesOf_shares]
    apply h.covers.share
    intro ref
    have hcount := hshares ref
    rw [count_openConns] at hcount
    unfold dueOf
    rw [openSessions_append]
    cases hheap : heap ref.2 with
    | none => exact Nat.zero_le _
    | some session =>
        rw [hheap] at hcount
        dsimp only at hcount ⊢
        split
        · rename_i hconn
          rw [if_pos hconn] at hcount
          rw [List.count_append, ← Nat.add_assoc]
          exact Nat.add_le_add_left hcount _
        · exact Nat.zero_le _
  · intro task htask
    rcases List.mem_append.mp htask with hold | hnew
    · exact h.known task hold
    · exact hknown task hnew

/-- A task is handled. -/
theorem take {before after : List (BroadcastTask π)} {task : BroadcastTask π}
    (h : Accounted heap (before ++ task :: after) log) :
    Accounted heap (before ++ after)
      (log ++ (Broker.openConns heap task.subscribers).map fun ref => .release ref.1 ref.2) := by
  constructor
  · rw [movesOf_append, movesOf_releases]
    apply h.covers.release
    intro ref
    rw [count_openConns]
    unfold dueOf
    cases heap ref.2 with
    | none => exact le_rfl
    | some session =>
        dsimp only
        split
        · simp only [openSessions, List.flatMap_append, List.flatMap_cons, List.filterMap_append,
            List.count_append]
          omega
        · exact le_rfl
  · intro other hother
    apply h.known
    simp only [List.mem_append, List.mem_cons] at hother ⊢
    tauto

theorem known_update (h : Accounted heap tasks log) :
    ∀ task ∈ tasks, ∀ entry ∈ task.subscribers,
      Function.update heap s (some changed) entry.session ≠ none := by
  intro task htask entry hentry
  by_cases hs : entry.session = s
  · rw [hs, Function.update_self]
    simp
  · rw [Function.update_of_ne hs]
    exact h.known task htask entry hentry

/-- The other fields of a session change. -/
theorem setFields (h : Accounted heap tasks log) (hsession : heap s = some session)
    (hstate : changed.state = session.state) (hconn : changed.conn = session.conn) :
    Accounted (Function.update heap s (some changed)) tasks log := by
  refine ⟨h.covers.mono ?_, h.known_update⟩
  intro ref
  unfold dueOf
  by_cases hs : ref.2 = s
  · rw [hs, Function.update_self, hsession]
    dsimp only
    rw [hstate, hconn]
  · rw [Function.update_of_ne hs]

/-- An open session is closed. -/
theorem close (h : Accounted heap tasks log) (hsession : heap s = some session)
    (hopened : session.state = .opened) (hclosed : changed.state = .closed)
    (hconn : changed.conn = session.conn) :
    Accounted (Function.update heap s (some changed)) tasks (log ++ [.release session.conn s]) := by
  refine ⟨?_, h.known_update⟩
  have hmoves : movesOf (log ++ [.release session.conn s])
      = movesOf log ++ [(session.conn, s)].map .release := movesOf_append _ _
  rw [hmoves]
  apply h.covers.release
  intro ref
  unfold dueOf
  by_cases hs : ref.2 = s
  · rw [hs, Function.update_self, hsession]
    dsimp only
    rw [hopened, hclosed, hconn]
    by_cases hk : session.conn = ref.1
    · have href : ref = (session.conn, s) := Prod.ext hk.symm hs
      simp [href, Nat.add_comm]
    · have href : ref ≠ (session.conn, s) := fun hsame => hk (congrArg Prod.fst hsame).symm
      simp [hk, Ne.symm href]
  · have href : ref ≠ (session.conn, s) := fun hsame => hs (congrArg Prod.snd hsame)
    rw [Function.update_of_ne hs]
    simp [Ne.symm href]

/-- A session is opened on a connection, when nothing waits for it or it was
there before. -/
theorem reopen (h : Accounted heap tasks log) (hopened : changed.state = .opened)
    (hwaits : (openSessions tasks).count s = 0 ∨
      ∃ session, heap s = some session ∧ session.conn = changed.conn) :
    Accounted (Function.update heap s (some changed)) tasks (log ++ [.share changed.conn s]) := by
  refine ⟨?_, h.known_update⟩
  have hmoves : movesOf (log ++ [.share changed.conn s])
      = movesOf log ++ [(changed.conn, s)].map .share := movesOf_append _ _
  rw [hmoves]
  apply h.covers.share
  intro ref
  unfold dueOf
  by_cases hs : ref.2 = s
  · rw [hs, Function.update_self]
    dsimp only
    rw [hopened]
    by_cases hk : changed.conn = ref.1
    · have href : ref = (changed.conn, s) := Prod.ext hk.symm hs
      rw [if_pos hk, if_pos rfl, href, List.count_singleton_self]
      rcases hwaits with hnone | ⟨session, hsession, hconn⟩
      · omega
      · rw [hsession]
        simp only [hconn, if_true]
        omega
    · rw [if_neg hk]
      exact Nat.zero_le _
  · rw [Function.update_of_ne hs]
    exact Nat.le_add_right _ _

end Accounted

namespace Broker

variable [TmqString π] {config : BrokerConfig π J} {broker next : Broker π} {label : Label π}

/-- The connection of a session stays the one that was shared: a stored
session is not cleaned up by a CONNECT, and not resumed on another connection
while a subscriber of it waits. Fresh subscriber vectors are empty. -/
def KeepsShared (broker : Broker π) : Label π → Prop
  | .execute run => match broker.requests with
    | .connect k req :: _ => ∀ conn s session, broker.conns k = some conn →
        broker.sessions (req.clientId conn) = some s → broker.heap s = some session →
        session.state = .closed → connectCleanSession req.pkt.flags = false ∧
          (session.conn = k ∨ s ∉ openSessions broker.broadcastTasks)
    | .subscribe _ _ :: _ => ∀ i entries, run.uninitialised i = some entries → entries = []
    | _ => True
  | _ => True

def Counted (broker : Broker π) : Prop :=
  Accounted broker.heap broker.broadcastTasks broker.log

/-- The tasks for retained messages hold at most one subscriber each. -/
theorem subscribers_retainTasks {s : Nat} {run : Execution}
    (hempty : ∀ i entries, run.uninitialised i = some entries → entries = []) (conn : ClientConn)
    (retained : List (RetainMessage π)) :
    ∀ task ∈ retainTasks run conn s retained,
      task.subscribers = [] ∨ task.subscribers = [⟨s, run.qosAfterEnd, false⟩] := by
  intro task htask
  obtain ⟨message, -, rfl⟩ := List.mem_map.mp htask
  dsimp only
  split
  · exact .inl rfl
  · rename_i entries hvector
    rw [hempty message.2 entries hvector]
    exact .inr rfl

/-- One share is made for each retained message. -/
theorem shares_retainTasks (run : Execution) (conn : ClientConn) (s k : Nat)
    (retained : List (RetainMessage π)) :
    (((retainTasks run conn s retained).map fun _ => (k, s)).map
      fun ref => (.share ref.1 ref.2 : BrokerEvent π)) = retained.map fun _ => .share k s := by
  have hlength : (retainTasks run conn s retained).length = retained.length := by
    rw [retainTasks, List.length_map, List.length_zipIdx]
  simp only [List.map_const', List.map_replicate, hlength]

omit [TmqString π] in
theorem count_openConns_single {heap : Nat → Option (SessionRecord π)} {s : Nat} {qos : UInt8}
    {session : SessionRecord π} (hsession : heap s = some session)
    {tasks : List (BroadcastTask π)}
    (hsingle : ∀ task ∈ tasks, task.subscribers = [] ∨ task.subscribers = [⟨s, qos, false⟩])
    (ref : ConnRef) :
    (openConns heap (tasks.flatMap BroadcastTask.subscribers)).count ref
      ≤ (tasks.map fun _ => (session.conn, s)).count ref := by
  induction tasks with
  | nil => exact le_rfl
  | cons task tasks ih =>
      obtain ⟨hfirst, hrest⟩ := List.forall_mem_cons.mp hsingle
      have hcount := ih hrest
      have hsplit : openConns heap ((task :: tasks).flatMap BroadcastTask.subscribers)
          = openConns heap task.subscribers
            ++ openConns heap (tasks.flatMap BroadcastTask.subscribers) := by
        rw [List.flatMap_cons, openConns, List.filterMap_append]
        rfl
      rw [hsplit, List.count_append, List.map_cons, List.count_cons]
      rcases hfirst with hnone | hone
      · rw [hnone]
        simp only [openConns, List.filterMap_nil, List.count_nil] at hcount ⊢
        omega
      · have hown : (openConns heap task.subscribers).count ref
            = if (session.conn, s) == ref then 1 else 0 := by
          simp [hone, openConns, hsession, List.count_singleton]
        omega

omit [TmqString π] in
theorem Counted.not_open (h : broker.Counted) {s : Nat} (hfree : broker.heap s = none) :
    s ∉ openSessions broker.broadcastTasks := by
  intro hmem
  obtain ⟨entry, hentry, hopen⟩ := List.mem_filterMap.mp hmem
  obtain ⟨task, htask, hsubscriber⟩ := List.mem_flatMap.mp hentry
  split at hopen
  · cases hopen
  · obtain rfl := Option.some.inj hopen
    exact h.known task htask entry hsubscriber hfree

theorem Queues.known {heap : Nat → Option (SessionRecord π)} {message : MqttMessage π}
    {tasks : List (BroadcastTask π)} {shares : List (Nat × Nat)}
    (h : Queues heap message tasks shares) :
    ∀ task ∈ tasks, ∀ entry ∈ task.subscribers, heap entry.session ≠ none := by
  intro task htask entry hentry
  obtain ⟨session, hsession, -⟩ := h.flagged task htask entry hentry
  simp [hsession]

theorem Queues.counts {heap : Nat → Option (SessionRecord π)} {message : MqttMessage π}
    {tasks : List (BroadcastTask π)} {shares : List (Nat × Nat)}
    (h : Queues heap message tasks shares) (ref : ConnRef) :
    (openConns heap (tasks.flatMap BroadcastTask.subscribers)).count ref ≤ shares.count ref :=
  (h.shared.count_eq ref).ge

theorem Counted.publishWill (h : broker.Counted) {session : SessionRecord π} {op : SessionReqOp}
    {topics : Topics π} {tasks : List (BroadcastTask π)} {events : List (BrokerEvent π)}
    (hwill : PublishesWill config broker session op topics tasks events) :
    Accounted broker.heap (broker.broadcastTasks ++ tasks) (broker.log ++ events) := by
  cases hwill with
  | silent =>
      rw [List.append_nil, List.append_nil]
      exact h
  | publish will req hop hstored hmessage hqueues =>
      have hsilent : Accounted broker.heap broker.broadcastTasks
          (broker.log ++ [.willPublished session.conn will]) := h.silent rfl
      have hqueued := hsilent.queue hqueues.counts hqueues.known
      rw [List.append_assoc] at hqueued
      exact hqueued

theorem counted_change (hcoherent : broker.Coherent) (h : broker.Counted)
    (hkeeps : broker.KeepsShared label) (hchange : Change config broker label next) :
    next.Counted := by
  cases hchange with
  | unchanged | accept | stop | validate | invalidate | reject | dropTopics => exact h
  | closeIdle | connectPool | connectPost | disconnectIdle | answerClose | answerRefuse
  | removeTopics => exact h.silent rfl
  | closeAttached | connectRefuse | disconnectAttached | answerEnter =>
      exact (h.silent rfl).silent rfl
  | connectLose => exact ((h.silent rfl).silent rfl).silent rfl
  | subscribe hconn hgate hup hsession => exact h.setFields hsession rfl rfl
  | unsubscribe hconn hgate hup hsession => exact h.setFields hsession rfl rfl
  | @startNew run k req requests conn hrequests hconn habsent hfree =>
      have hnew : (openSessions broker.broadcastTasks).count run.malloc = 0 := by
        rw [List.count_eq_zero]
        exact h.not_open hfree
      exact ((h.reopen rfl (.inl hnew)).silent rfl).silent rfl
  | restart hrequests hconn hregistered hsession hclosed hclean =>
      simp only [KeepsShared, hrequests] at hkeeps
      have hkept := (hkeeps _ _ _ hconn hregistered hsession hclosed).1
      rw [hclean] at hkept
      cases hkept
  | resume hrequests hconn hregistered hsession hclosed =>
      simp only [KeepsShared, hrequests] at hkeeps
      refine (h.reopen rfl ?_).silent rfl
      rcases (hkeeps _ _ _ hconn hregistered hsession hclosed).2 with hsame | hnone
      · exact .inr ⟨_, hsession, hsame⟩
      · exact .inl (List.count_eq_zero.mpr hnone)
  | closeKeep hrequests hsession hkeep hwill =>
      rw [Coherent, hrequests] at hcoherent
      obtain ⟨k, found, hfound, hopened, -⟩ := hcoherent.live_of_dequeue rfl
      obtain rfl := Option.some.inj (hsession.symm.trans hfound)
      exact ((h.publishWill hwill).silent rfl).close hsession hopened rfl rfl
  | closeClean hrequests hsession hclean hwill =>
      rw [Coherent, hrequests] at hcoherent
      obtain ⟨k, found, hfound, hopened, -⟩ := hcoherent.live_of_dequeue rfl
      obtain rfl := Option.some.inj (hsession.symm.trans hfound)
      exact ((h.publishWill hwill).silent rfl).close hsession hopened rfl rfl
  | @addTopics run s clientId pkt requests session conn hrequests hregistered hsession hopened
      hconn =>
      simp only [KeepsShared, hrequests] at hkeeps
      have hsingle := subscribers_retainTasks hkeeps conn (s := s)
        (addSubscriptions config session s pkt.topics broker.topicsTree).2.1
      have hsilent : Accounted broker.heap broker.broadcastTasks
          (broker.log ++ [.queueWrite session.conn (.suback ⟨pkt.packetId,
            (addSubscriptions config session s pkt.topics broker.topicsTree).2.2⟩)]) :=
        h.silent rfl
      have hqueued := hsilent.queue (count_openConns_single hsession hsingle) (by
        intro task htask entry hentry
        rcases hsingle task htask with hnone | hone
        · rw [hnone] at hentry
          cases hentry
        · rw [hone, List.mem_singleton] at hentry
          simp [hentry, hsession])
      rw [shares_retainTasks] at hqueued
      exact hqueued
  | publish hqueues => exact h.queue hqueues.counts hqueues.known
  | broadcast htasks hfound =>
      rw [Counted, htasks] at h
      exact h.take

/-- Every release of a connection on behalf of a session has an earlier share
of that connection for that session which is not yet released. -/
def ReleasesMatched (broker : Broker π) : Prop := Shares.Matched (movesOf broker.log)

/-- In every run in which connections stay the ones that were shared, every
release is matched. -/
theorem releasesMatched_of_keepsShared (config : BrokerConfig π J) (labels : List (Label π))
    (hlabels : Run.Admissible KeepsShared (step config) init labels) {broker : Broker π}
    (hrun : Run.runs (step config) init labels = some broker) : broker.ReleasesMatched := by
  have hinv : broker.Coherent ∧ broker.Counted := by
    refine @Run.runs_preserves _ _ _ _ (fun state => state.Coherent ∧ state.Counted) ?_ _ _ _
      ⟨coherent_init, Accounted.init⟩ hlabels hrun
    rintro state label next ⟨hcoherent, hcounted⟩ hkeeps hstep
    have hchange := step_change hstep
    exact ⟨coherent_change hcoherent hchange, counted_change hcoherent hcounted hkeeps hchange⟩
  exact hinv.2.covers.matched

/-- A client connects, disconnects, and comes back on another connection. -/
def disconnectThenConnect (cleanSession : Bool) : List (Label Bytes) :=
  [.accept 0 [], .connect 0 (connectFrom [65] false) false, .execute (sampleExecution 7),
    .connectComplete 0, .disconnect 0, .execute (sampleExecution 0), .accept 1 [],
    .connect 1 (connectFrom [65] cleanSession) false, .execute (sampleExecution 8)]

theorem releasesMatched_resume :
    ∃ broker, Run.runs (step sampleConfig) init (disconnectThenConnect false) = some broker ∧
      broker.ReleasesMatched := by
  refine ⟨_, rfl, ?_⟩
  refine releasesMatched_of_keepsShared sampleConfig (disconnectThenConnect false)
    ⟨trivial, trivial, ?_, trivial, trivial, trivial, trivial, trivial, ?_, trivial⟩ rfl
  · intro conn s session _ hregistered
    cases hregistered
  · intro conn s session _ hregistered hsession _
    exact ⟨rfl, .inr nofun⟩

/-- The CONNECT that cleans up the stored session releases its connection once
more. -/
theorem not_releasesMatched_restart :
    ∃ broker, Run.runs (step sampleConfig) init (disconnectThenConnect true) = some broker ∧
      ¬ broker.ReleasesMatched := by
  refine ⟨_, rfl, ?_⟩
  intro h
  have hmatched := h _ List.prefix_rfl (0, 7)
  revert hmatched
  decide

end Broker

end TinyMqtt
