import TinyMqtt.Broker.Sessions
import TinyMqtt.Topic.Locality

/-!
Two records of who has subscribed what. A session lists its filters as soon as
the packet is parsed, and the tree follows when the request is executed, so
the two are compared after the requests that wait. The list of a session
covers its entries of the tree in every run, and this is what makes the
cleanup of a session complete. It is equal to them as long as every filter
that is subscribed reaches the tree.
-/

namespace TinyMqtt

variable {π J : Type}

/-! ### Entries of the tree -/

def entryAt (root : TopicNode π) (path : List Bytes) (clientId : Bytes) : Option SubscribeInfo :=
  (dataAt root path).subscribers.bind fun subscribers => subscribers.lookup clientId

/-- The tree lists the client under the filter. -/
def listed (root : TopicNode π) (filter clientId : Bytes) : Bool :=
  (entryAt root (tmqTopicSplit filter) clientId).isSome

theorem entryAt_addSubscription (topics : Topics π) (topicFilter clientId : Bytes)
    (info : SubscribeInfo) (path : List Bytes) (client : Bytes) :
    entryAt (tmqTopicsAddSubscription topics topicFilter clientId info).2.root path client
      = if cstr topicFilter ≠ [] ∧ path = tmqTopicSplit topicFilter ∧ client = cstr clientId then
          some info
        else entryAt topics.root path client := by
  unfold tmqTopicsAddSubscription
  by_cases hempty : cstr topicFilter = []
  · simp [hempty]
  · have hlength : ¬ (cstr topicFilter).length < 1 := by
      rw [Nat.lt_one_iff, List.length_eq_zero_iff]
      exact hempty
    simp only [hlength, if_false]
    rw [entryAt, dataAt_addTopic]
    by_cases hpath : path = tmqTopicSplit topicFilter
    · rw [if_pos hpath]
      by_cases hclient : client = cstr clientId
      · rw [if_pos ⟨hempty, hpath, hclient⟩, hclient, TopicData.subscribe, Option.bind_some,
          AList.lookup_insert]
      · rw [if_neg (by simp [hclient]), TopicData.subscribe, Option.bind_some,
          AList.lookup_insert_ne hclient, entryAt]
        cases (dataAt topics.root path).subscribers <;> rfl
    · rw [if_neg hpath, if_neg (by simp [hpath])]
      rfl

theorem entryAt_removeSubscription {topics next : Topics π} {topicFilter clientId : Bytes}
    (hremove : tmqTopicsRemoveSubscription topics topicFilter clientId = some next)
    (path : List Bytes) (client : Bytes) :
    entryAt next.root path client
      = if path = tmqTopicSplit topicFilter ∧ client = cstr clientId then none
        else entryAt topics.root path client := by
  by_cases habsent : topics.root.valueAt (tmqTopicSplit topicFilter) = none
  · rw [removeSubscription_absent habsent] at hremove
    obtain rfl := Option.some.inj hremove
    split
    · rename_i hsame
      rw [entryAt, hsame.1, dataAt_of_absent habsent]
      rfl
    · rfl
  · cases htable : (dataAt topics.root (tmqTopicSplit topicFilter)).subscribers with
    | none =>
        rw [removeSubscription_stuck habsent htable] at hremove
        cases hremove
    | some subscribers =>
        rw [removeSubscription_table htable] at hremove
        obtain rfl := Option.some.inj hremove
        rw [entryAt, subscribers_removeSubscription htable]
        by_cases hpath : path = tmqTopicSplit topicFilter
        · rw [if_pos hpath, eraseSubscriber_lookup, entryAt, hpath, htable, Option.bind_some]
          simp
        · rw [if_neg hpath, if_neg (by simp [hpath])]
          rfl

theorem entryAt_publish [TmqString π] (cJsonParse : π → Option J) (topics : Topics π)
    (req : PublishReq π) (path : List Bytes) (client : Bytes) :
    entryAt (tmqTopicsPublish cJsonParse topics req).1.root path client
      = entryAt topics.root path client := by
  unfold entryAt tmqTopicsPublish
  dsimp only
  rw [dataAt_matchNode]
  split <;> rfl

theorem entryAt_removeAll {clientId : Bytes} {filters : List Bytes} {topics next : Topics π}
    (hremove : Broker.removeAll clientId filters topics = some next) (path : List Bytes)
    (client : Bytes) :
    entryAt next.root path client
      = if path ∈ filters.map tmqTopicSplit ∧ client = cstr clientId then none
        else entryAt topics.root path client := by
  induction filters generalizing topics with
  | nil =>
      obtain rfl := Option.some.inj hremove
      simp
  | cons filter filters ih =>
      simp only [Broker.removeAll, List.foldlM_cons, Option.bind_eq_bind,
        Option.bind_eq_some_iff] at hremove
      obtain ⟨middle, hfirst, hrest⟩ := hremove
      rw [ih hrest, entryAt_removeSubscription hfirst]
      by_cases hclient : client = cstr clientId
      · by_cases hpath : path = tmqTopicSplit filter <;> simp [hclient, hpath]
      · simp [hclient]

section AddSubscriptions

variable {config : BrokerConfig π J} {session : SessionRecord π} {s : Nat}

/-- What a SUBSCRIBE puts into the tree is the session, under its filters. -/
theorem entryAt_addSubscriptions {filters : List TopicFilterQos} {topics : Topics π}
    {path : List Bytes} {client : Bytes} {info : SubscribeInfo}
    (hentry : entryAt (Broker.addSubscriptions config session s filters topics).1.root path client
      = some info) :
    entryAt topics.root path client = some info ∨
      (client = cstr session.clientId ∧ info.session = s ∧
        ∃ tf ∈ filters, path = tmqTopicSplit tf.topicFilter) := by
  induction filters generalizing topics with
  | nil => exact .inl hentry
  | cons tf filters ih =>
      simp only [Broker.addSubscriptions] at hentry
      split at hentry
      · rcases ih hentry with hold | ⟨hclient, hsession, other, hother, hpath⟩
        · exact .inl hold
        · exact .inr ⟨hclient, hsession, other, List.mem_cons_of_mem tf hother, hpath⟩
      · rcases ih hentry with hold | ⟨hclient, hsession, other, hother, hpath⟩
        · rw [entryAt_addSubscription] at hold
          split at hold
          · rename_i hnew
            obtain rfl := Option.some.inj hold
            exact .inr ⟨hnew.2.2, rfl, tf, List.mem_cons_self, hnew.2.1⟩
          · exact .inl hold
        · exact .inr ⟨hclient, hsession, other, List.mem_cons_of_mem tf hother, hpath⟩

/-- A SUBSCRIBE removes nothing. -/
theorem entryAt_addSubscriptions_mono {filters : List TopicFilterQos} {topics : Topics π}
    {path : List Bytes} {client : Bytes} (hentry : entryAt topics.root path client ≠ none) :
    entryAt (Broker.addSubscriptions config session s filters topics).1.root path client ≠ none := by
  induction filters generalizing topics with
  | nil => exact hentry
  | cons tf filters ih =>
      simp only [Broker.addSubscriptions]
      split
      · exact ih hentry
      · apply ih
        rw [entryAt_addSubscription]
        split
        · simp
        · exact hentry

/-- A filter that is not empty and that access control permits reaches the
tree. -/
theorem entryAt_addSubscriptions_self {filters : List TopicFilterQos} {topics : Topics π}
    {tf : TopicFilterQos} (hmem : tf ∈ filters) (hnonempty : cstr tf.topicFilter ≠ [])
    (hpermitted : config.aclDenies session tf.topicFilter .sub = false) :
    entryAt (Broker.addSubscriptions config session s filters topics).1.root
      (tmqTopicSplit tf.topicFilter) (cstr session.clientId) ≠ none := by
  induction filters generalizing topics with
  | nil => cases hmem
  | cons first filters ih =>
      rcases List.mem_cons.mp hmem with rfl | hlater
      · simp only [Broker.addSubscriptions, hpermitted, Bool.false_eq_true, if_false]
        apply entryAt_addSubscriptions_mono
        rw [entryAt_addSubscription, if_pos ⟨hnonempty, rfl, rfl⟩]
        simp
      · simp only [Broker.addSubscriptions]
        split
        · exact ih hlater
        · exact ih hlater

end AddSubscriptions

/-! ### Requests that wait -/

def Request.topicClient : Request π → Option Bytes
  | .subscribe clientId _ | .unsubscribe clientId _ => some clientId
  | _ => none

/-- What a request makes of a subscription of the client. -/
def Request.edits (clientId filter : Bytes) : Request π → Option Bool
  | .subscribe client pkt =>
      if client = clientId ∧ cstr filter ∈ pkt.topics.map fun tf => cstr tf.topicFilter then
        some true
      else none
  | .unsubscribe client pkt =>
      if client = clientId ∧ cstr filter ∈ pkt.topics.map cstr then some false else none
  | _ => none

def listedAfter (clientId filter : Bytes) (requests : List (Request π)) (now : Bool) : Bool :=
  requests.foldl (fun now request => (request.edits clientId filter).getD now) now

theorem Request.edits_of_other {request : Request π} {clientId : Bytes}
    (hother : request.topicClient ≠ some clientId) (filter : Bytes) :
    request.edits clientId filter = none := by
  cases request with
  | subscribe client pkt =>
      have hclient : client ≠ clientId := fun hsame => hother (congrArg some hsame)
      simp [edits, hclient]
  | unsubscribe client pkt =>
      have hclient : client ≠ clientId := fun hsame => hother (congrArg some hsame)
      simp [edits, hclient]
  | connect | close => rfl

theorem listedAfter_of_quiet {clientId filter : Bytes} {requests : List (Request π)} {now : Bool}
    (hquiet : ∀ request ∈ requests, request.topicClient ≠ some clientId) :
    listedAfter clientId filter requests now = now := by
  induction requests with
  | nil => rfl
  | cons request requests ih =>
      obtain ⟨hfirst, hrest⟩ := List.forall_mem_cons.mp hquiet
      rw [listedAfter, List.foldl_cons, Request.edits_of_other hfirst, Option.getD_none]
      exact ih hrest

theorem listedAfter_mono {clientId filter : Bytes} {requests : List (Request π)} {now now' : Bool}
    (hmono : now = true → now' = true) (hlisted : listedAfter clientId filter requests now = true) :
    listedAfter clientId filter requests now' = true := by
  induction requests generalizing now now' with
  | nil => exact hmono hlisted
  | cons request requests ih =>
      rw [listedAfter, List.foldl_cons] at hlisted ⊢
      apply ih _ hlisted
      cases request.edits clientId filter with
      | none => exact hmono
      | some edit => exact id

theorem listedAfter_post (clientId filter : Bytes) (requests : List (Request π))
    (request : Request π) (now : Bool) :
    listedAfter clientId filter (requests ++ [request]) now
      = (request.edits clientId filter).getD (listedAfter clientId filter requests now) := by
  rw [listedAfter, List.foldl_append]
  rfl

theorem listedAfter_dequeue (clientId filter : Bytes) (requests : List (Request π))
    (request : Request π) (now : Bool) :
    listedAfter clientId filter (request :: requests) now
      = listedAfter clientId filter requests ((request.edits clientId filter).getD now) := rfl

/-! ### The two records -/

/-- The lists of the sessions and the entries of the tree. The list may hold
filters that the tree does not know, unless `strict` holds. -/
structure Tracks (strict : Prop) (heap : Nat → Option (SessionRecord π))
    (sessions : Bytes → Option Nat) (root : TopicNode π) (requests : List (Request π)) : Prop where
  named : ∀ s session, heap s = some session → cstr session.clientId = session.clientId
  texts : ∀ s session, heap s = some session → ∀ filter ∈ session.subscriptions,
    cstr filter = filter
  kept : ∀ s session, heap s = some session → session.released = false →
    sessions session.clientId = some s
  /-- a topic request waits only for an open session -/
  opened : ∀ request ∈ requests, ∀ clientId, request.topicClient = some clientId →
    ∃ s session, sessions clientId = some s ∧ heap s = some session ∧ session.state = .opened
  /-- it is executed before the session is closed -/
  ordered : requests.Pairwise fun earlier later => ∀ clientId s,
    later.topicClient = some clientId → sessions clientId = some s → earlier.closes ≠ some s
  entries : ∀ path clientId info, entryAt root path clientId = some info →
    (∃ filter, path = tmqTopicSplit filter) ∧ sessions clientId = some info.session
  covered : ∀ clientId s session filter, sessions clientId = some s → heap s = some session →
    listedAfter clientId filter requests (listed root filter clientId) = true →
    cstr filter ∈ session.subscriptions
  complete : strict → ∀ clientId s session filter, sessions clientId = some s →
    heap s = some session → cstr filter ∈ session.subscriptions →
    listedAfter clientId filter requests (listed root filter clientId) = true

namespace Tracks

variable {strict : Prop} {heap : Nat → Option (SessionRecord π)} {sessions : Bytes → Option Nat}
  {root root' : TopicNode π} {requests : List (Request π)} {request : Request π} {s : Nat}
  {session changed : SessionRecord π}

theorem setRoot (h : Tracks strict heap sessions root requests)
    (hsame : ∀ path clientId, entryAt root' path clientId = entryAt root path clientId) :
    Tracks strict heap sessions root' requests := by
  have hlisted : ∀ filter clientId, listed root' filter clientId = listed root filter clientId := by
    intro filter clientId
    rw [listed, listed, hsame]
  refine ⟨h.named, h.texts, h.kept, h.opened, h.ordered, ?_, ?_, ?_⟩
  · intro path clientId info hentry
    rw [hsame] at hentry
    exact h.entries path clientId info hentry
  · intro clientId s session filter hregistered hsession hafter
    rw [hlisted] at hafter
    exact h.covered clientId s session filter hregistered hsession hafter
  · intro hstrict clientId s session filter hregistered hsession hmem
    rw [hlisted]
    exact h.complete hstrict clientId s session filter hregistered hsession hmem

theorem post (h : Tracks strict heap sessions root requests) (htopic : request.topicClient = none) :
    Tracks strict heap sessions root (requests ++ [request]) := by
  have hafter : ∀ clientId filter now, listedAfter clientId filter (requests ++ [request]) now
      = listedAfter clientId filter requests now := by
    intro clientId filter now
    rw [listedAfter_post, Request.edits_of_other (by simp [htopic]), Option.getD_none]
  refine ⟨h.named, h.texts, h.kept, ?_, ?_, h.entries, ?_, ?_⟩
  · intro other hother clientId hclient
    rcases List.mem_append.mp hother with hold | hnew
    · exact h.opened other hold clientId hclient
    · rw [List.mem_singleton.mp hnew, htopic] at hclient
      cases hclient
  · rw [List.pairwise_append]
    refine ⟨h.ordered, List.pairwise_singleton _ _, ?_⟩
    intro earlier _ later hlater clientId s hclient
    rw [List.mem_singleton.mp hlater, htopic] at hclient
    cases hclient
  · intro clientId s session filter
    rw [hafter]
    exact h.covered clientId s session filter
  · intro hstrict clientId s session filter
    rw [hafter]
    exact h.complete hstrict clientId s session filter

theorem dequeue (h : Tracks strict heap sessions root (request :: requests))
    (htopic : request.topicClient = none) : Tracks strict heap sessions root requests := by
  have hafter : ∀ clientId filter now, listedAfter clientId filter (request :: requests) now
      = listedAfter clientId filter requests now := by
    intro clientId filter now
    rw [listedAfter_dequeue, Request.edits_of_other (by simp [htopic]), Option.getD_none]
  refine ⟨h.named, h.texts, h.kept, ?_, h.ordered.tail, h.entries, ?_, ?_⟩
  · intro other hother
    exact h.opened other (List.mem_cons_of_mem request hother)
  · intro clientId s session filter
    rw [← hafter]
    exact h.covered clientId s session filter
  · intro hstrict clientId s session filter
    rw [← hafter]
    exact h.complete hstrict clientId s session filter

/-- No topic request waits for a session that is closed next. -/
theorem quiet_of_close {op : SessionReqOp}
    (h : Tracks strict heap sessions root (.close op (some s) :: requests)) :
    ∀ request ∈ requests, ∀ clientId, request.topicClient = some clientId →
      sessions clientId ≠ some s := by
  intro request hrequest clientId hclient hregistered
  exact (List.pairwise_cons.mp h.ordered).1 request hrequest clientId s hclient hregistered rfl

/-- No topic request waits for a closed session. -/
theorem quiet_of_closed (h : Tracks strict heap sessions root requests)
    (hsession : heap s = some session) (hclosed : session.state = .closed) :
    ∀ request ∈ requests, ∀ clientId, request.topicClient = some clientId →
      sessions clientId ≠ some s := by
  intro request hrequest clientId hclient hregistered
  obtain ⟨s', found, hregistered', hfound, hopened⟩ := h.opened request hrequest clientId hclient
  obtain rfl := Option.some.inj (hregistered.symm.trans hregistered')
  obtain rfl := Option.some.inj (hsession.symm.trans hfound)
  rw [hclosed] at hopened
  cases hopened

/-- A session changes, and its list of subscriptions does not. -/
theorem setSession (h : Tracks strict heap sessions root requests) (hsession : heap s = some session)
    (hclient : changed.clientId = session.clientId)
    (hreleased : changed.released = session.released)
    (hlist : changed.subscriptions = session.subscriptions)
    (hquiet : ∀ request ∈ requests, ∀ clientId, request.topicClient = some clientId →
      sessions clientId ≠ some s) :
    Tracks strict (Function.update heap s (some changed)) sessions root requests := by
  have hfind : ∀ s' found, Function.update heap s (some changed) s' = some found → ∃ before,
      heap s' = some before ∧ found.clientId = before.clientId ∧
        found.released = before.released ∧ found.subscriptions = before.subscriptions := by
    intro s' found hfound
    rcases update_cases hfound with ⟨rfl, rfl⟩ | ⟨-, hbefore⟩
    · exact ⟨session, hsession, hclient, hreleased, hlist⟩
    · exact ⟨found, hbefore, rfl, rfl, rfl⟩
  refine ⟨?_, ?_, ?_, ?_, h.ordered, h.entries, ?_, ?_⟩
  · intro s' found hfound
    obtain ⟨before, hbefore, hsame, -, -⟩ := hfind s' found hfound
    rw [hsame]
    exact h.named s' before hbefore
  · intro s' found hfound
    obtain ⟨before, hbefore, -, -, hsame⟩ := hfind s' found hfound
    rw [hsame]
    exact h.texts s' before hbefore
  · intro s' found hfound hkept
    obtain ⟨before, hbefore, hsame, hrel, -⟩ := hfind s' found hfound
    rw [hsame]
    exact h.kept s' before hbefore (hrel.symm.trans hkept)
  · intro request hrequest clientId hclient
    obtain ⟨s', found, hregistered, hfound, hopened⟩ := h.opened request hrequest clientId hclient
    refine ⟨s', found, hregistered, ?_, hopened⟩
    rw [Function.update_of_ne, hfound]
    rintro rfl
    exact hquiet request hrequest clientId hclient hregistered
  · intro clientId s' found filter hregistered hfound hafter
    obtain ⟨before, hbefore, -, -, hsame⟩ := hfind s' found hfound
    rw [hsame]
    exact h.covered clientId s' before filter hregistered hbefore hafter
  · intro hstrict clientId s' found filter hregistered hfound hmem
    obtain ⟨before, hbefore, -, -, hsame⟩ := hfind s' found hfound
    rw [hsame] at hmem
    exact h.complete hstrict clientId s' before filter hregistered hbefore hmem

/-- A client subscribes or unsubscribes: its list changes at once, and a
request follows. -/
theorem edit (h : Tracks strict heap sessions root requests) (hsession : heap s = some session)
    (hregistered : sessions session.clientId = some s)
    (hnamed : ∀ clientId, sessions clientId = some s → clientId = session.clientId)
    (hopened : session.state = .opened) (hfree : ∀ request ∈ requests, request.closes ≠ some s)
    (htopic : request.topicClient = some session.clientId)
    (hclient : changed.clientId = session.clientId) (hstate : changed.state = session.state)
    (hreleased : changed.released = session.released)
    (htexts : ∀ filter ∈ changed.subscriptions, cstr filter = filter)
    (hlist : ∀ filter, cstr filter ∈ changed.subscriptions ↔
      (request.edits session.clientId filter).getD (cstr filter ∈ session.subscriptions) = true) :
    Tracks strict (Function.update heap s (some changed)) sessions root (requests ++ [request]) := by
  have hfind : ∀ s' found, heap s' = some found → ∃ found',
      Function.update heap s (some changed) s' = some found' ∧ found'.state = found.state := by
    intro s' found hfound
    rcases update_forward hsession hfound changed with ⟨rfl, hafter⟩ | hafter
    · exact ⟨changed, hafter, hstate⟩
    · exact ⟨found, hafter, rfl⟩
  -- another registered session has another client
  have hother : ∀ clientId s', sessions clientId = some s' → s' ≠ s →
      ∀ filter, request.edits clientId filter = none := by
    intro clientId s' hregistered' hs filter
    apply Request.edits_of_other
    rw [htopic]
    intro hsame
    obtain rfl := Option.some.inj hsame
    exact hs (Option.some.inj (hregistered'.symm.trans hregistered))
  refine ⟨?_, ?_, ?_, ?_, ?_, h.entries, ?_, ?_⟩
  · intro s' found hfound
    rcases update_cases hfound with ⟨rfl, rfl⟩ | ⟨-, hbefore⟩
    · rw [hclient]
      exact h.named _ session hsession
    · exact h.named s' found hbefore
  · intro s' found hfound
    rcases update_cases hfound with ⟨rfl, rfl⟩ | ⟨-, hbefore⟩
    · exact htexts
    · exact h.texts s' found hbefore
  · intro s' found hfound hkept
    rcases update_cases hfound with ⟨rfl, rfl⟩ | ⟨-, hbefore⟩
    · rw [hclient]
      exact hregistered
    · exact h.kept s' found hbefore hkept
  · intro other hother clientId htopic'
    rcases List.mem_append.mp hother with hold | hnew
    · obtain ⟨s', found, hregistered', hfound, hopened'⟩ := h.opened other hold clientId htopic'
      obtain ⟨found', hfound', hstate'⟩ := hfind s' found hfound
      exact ⟨s', found', hregistered', hfound', hstate'.trans hopened'⟩
    · rw [List.mem_singleton.mp hnew, htopic] at htopic'
      obtain rfl := Option.some.inj htopic'
      exact ⟨s, changed, hregistered, Function.update_self .., hstate.trans hopened⟩
  · rw [List.pairwise_append]
    refine ⟨h.ordered, List.pairwise_singleton _ _, ?_⟩
    intro earlier hearlier later hlater clientId s' htopic' hregistered'
    rw [List.mem_singleton.mp hlater, htopic] at htopic'
    obtain rfl := Option.some.inj htopic'
    obtain rfl := Option.some.inj (hregistered.symm.trans hregistered')
    exact hfree earlier hearlier
  · intro clientId s' found filter hregistered' hfound hafter
    rw [listedAfter_post] at hafter
    rcases update_cases hfound with ⟨rfl, rfl⟩ | ⟨hs, hbefore⟩
    · obtain rfl := hnamed clientId hregistered'
      rw [hlist]
      cases hedits : request.edits session.clientId filter with
      | none =>
          rw [hedits] at hafter
          exact decide_eq_true
            (h.covered session.clientId _ session filter hregistered hsession hafter)
      | some edit =>
          rw [hedits] at hafter
          exact hafter
    · rw [hother clientId s' hregistered' hs] at hafter
      exact h.covered clientId s' found filter hregistered' hbefore hafter
  · intro hstrict clientId s' found filter hregistered' hfound hmem
    rw [listedAfter_post]
    rcases update_cases hfound with ⟨rfl, rfl⟩ | ⟨hs, hbefore⟩
    · obtain rfl := hnamed clientId hregistered'
      rw [hlist] at hmem
      cases hedits : request.edits session.clientId filter with
      | none =>
          rw [hedits] at hmem
          exact h.complete hstrict session.clientId _ session filter hregistered hsession
            (of_decide_eq_true hmem)
      | some edit =>
          rw [hedits] at hmem
          exact hmem
    · rw [hother clientId s' hregistered' hs]
      exact h.complete hstrict clientId s' found filter hregistered' hbefore hmem

/-- A new session in the table. -/
theorem putNew (h : Tracks strict heap sessions root requests) (hfree : heap s = none)
    (habsent : sessions session.clientId = none)
    (hnamed : ∀ clientId, sessions clientId = some s → clientId = session.clientId)
    (hname : cstr session.clientId = session.clientId) (hempty : session.subscriptions = ∅)
    (hcloses : ∀ request ∈ requests, request.closes ≠ some s) :
    Tracks strict (Function.update heap s (some session))
      (Function.update sessions session.clientId (some s)) root requests := by
  have hquiet : ∀ request ∈ requests, request.topicClient ≠ some session.clientId := by
    intro request hrequest htopic
    obtain ⟨s', found, hregistered, -⟩ := h.opened request hrequest _ htopic
    rw [habsent] at hregistered
    cases hregistered
  have hunlisted : ∀ filter, listed root filter session.clientId = false := by
    intro filter
    cases hentry : entryAt root (tmqTopicSplit filter) session.clientId with
    | none => rw [listed, hentry]; rfl
    | some info =>
        have hregistered := (h.entries _ _ info hentry).2
        rw [habsent] at hregistered
        cases hregistered
  refine ⟨?_, ?_, ?_, ?_, ?_, ?_, ?_, ?_⟩
  · intro s' found hfound
    rcases update_cases hfound with ⟨rfl, rfl⟩ | ⟨-, hbefore⟩
    · exact hname
    · exact h.named s' found hbefore
  · intro s' found hfound
    rcases update_cases hfound with ⟨rfl, rfl⟩ | ⟨-, hbefore⟩
    · rw [hempty]
      exact nofun
    · exact h.texts s' found hbefore
  · intro s' found hfound hkept
    rcases update_cases hfound with ⟨rfl, rfl⟩ | ⟨-, hbefore⟩
    · exact Function.update_self ..
    · have hregistered := h.kept s' found hbefore hkept
      exact (update_of_apply_ne (by simp [hregistered, habsent]) _).trans hregistered
  · intro request hrequest clientId htopic
    obtain ⟨s', found, hregistered, hfound, hopened⟩ := h.opened request hrequest clientId htopic
    refine ⟨s', found, ?_, ?_, hopened⟩
    · rw [Function.update_of_ne, hregistered]
      rintro rfl
      exact hquiet request hrequest htopic
    · exact (update_of_apply_ne (by simp [hfound, hfree]) _).trans hfound
  · refine h.ordered.imp_of_mem ?_
    intro earlier later hearlier hlater hbefore clientId s' htopic hregistered
    rcases update_cases hregistered with ⟨rfl, rfl⟩ | ⟨-, hold⟩
    · exact hcloses earlier hearlier
    · exact hbefore clientId s' htopic hold
  · intro path clientId info hentry
    obtain ⟨hfilter, hregistered⟩ := h.entries path clientId info hentry
    refine ⟨hfilter, ?_⟩
    exact (update_of_apply_ne (by simp [hregistered, habsent]) _).trans hregistered
  · intro clientId s' found filter hregistered hfound hafter
    rcases update_cases hregistered with ⟨rfl, rfl⟩ | ⟨hclient, hold⟩
    · rw [listedAfter_of_quiet hquiet, hunlisted] at hafter
      cases hafter
    · rcases update_cases hfound with ⟨rfl, rfl⟩ | ⟨-, hbefore⟩
      · exact (hclient (hnamed clientId hold)).elim
      · exact h.covered clientId s' found filter hold hbefore hafter
  · intro hstrict clientId s' found filter hregistered hfound hmem
    rcases update_cases hregistered with ⟨rfl, rfl⟩ | ⟨hclient, hold⟩
    · rw [Function.update_self] at hfound
      obtain rfl := Option.some.inj hfound
      rw [hempty] at hmem
      cases hmem
    · rcases update_cases hfound with ⟨rfl, rfl⟩ | ⟨-, hbefore⟩
      · exact (hclient (hnamed clientId hold)).elim
      · exact h.complete hstrict clientId s' found filter hold hbefore hmem

/-- A session leaves the table, and its subscriptions the tree. Its list has
every filter that the tree has, so nothing of it stays. -/
theorem clean (h : Tracks strict heap sessions root requests) (hsession : heap s = some session)
    (hregistered : sessions session.clientId = some s)
    (hnamed : ∀ clientId, sessions clientId = some s → clientId = session.clientId)
    (hquiet : ∀ request ∈ requests, ∀ clientId, request.topicClient = some clientId →
      sessions clientId ≠ some s)
    (changed : SessionRecord π) (hclient : changed.clientId = session.clientId)
    (hreleased : changed.released = true)
    (hlist : changed.subscriptions = session.subscriptions)
    (hentries : ∀ path clientId, entryAt root' path clientId
      = if path ∈ session.subscriptions.keys.map tmqTopicSplit ∧ clientId = session.clientId then
          none
        else entryAt root path clientId) :
    Tracks strict (Function.update heap s (some changed))
      (Function.update sessions session.clientId none) root' requests := by
  have hgone : ∀ path, entryAt root' path session.clientId = none := by
    intro path
    rw [hentries]
    split
    · rfl
    · rename_i hstays
      by_contra hentry
      obtain ⟨info, hinfo⟩ := Option.ne_none_iff_exists'.mp hentry
      obtain ⟨filter, rfl⟩ := (h.entries path _ info hinfo).1
      apply hstays
      refine ⟨List.mem_map.mpr ⟨cstr filter, ?_, ?_⟩, rfl⟩
      · apply h.covered session.clientId s session filter hregistered hsession
        rw [listedAfter_of_quiet, listed, hinfo]
        · rfl
        · intro request hrequest htopic
          exact hquiet request hrequest _ htopic hregistered
      · rw [tmqTopicSplit_inj, cstr_cstr]
  have hlisted : ∀ clientId filter, clientId ≠ session.clientId →
      listed root' filter clientId = listed root filter clientId := by
    intro clientId filter hother
    rw [listed, listed, hentries, if_neg (by simp [hother])]
  have hother : ∀ clientId s' found, Function.update sessions session.clientId none clientId = some s' →
      Function.update heap s (some changed) s' = some found →
      clientId ≠ session.clientId ∧ sessions clientId = some s' ∧ heap s' = some found := by
    intro clientId s' found htable hfound
    obtain ⟨hclient', hold⟩ := eq_some_of_update_none htable
    rcases update_cases hfound with ⟨rfl, -⟩ | ⟨-, hbefore⟩
    · exact (hclient' (hnamed clientId hold)).elim
    · exact ⟨hclient', hold, hbefore⟩
  refine ⟨?_, ?_, ?_, ?_, ?_, ?_, ?_, ?_⟩
  · intro s' found hfound
    rcases update_cases hfound with ⟨rfl, rfl⟩ | ⟨-, hbefore⟩
    · rw [hclient]
      exact h.named _ session hsession
    · exact h.named s' found hbefore
  · intro s' found hfound
    rcases update_cases hfound with ⟨rfl, rfl⟩ | ⟨-, hbefore⟩
    · rw [hlist]
      exact h.texts _ session hsession
    · exact h.texts s' found hbefore
  · intro s' found hfound hkept
    rcases update_cases hfound with ⟨rfl, rfl⟩ | ⟨hs, hbefore⟩
    · rw [hreleased] at hkept
      cases hkept
    · have hold := h.kept s' found hbefore hkept
      rw [Function.update_of_ne, hold]
      intro hsame
      rw [hsame] at hold
      exact hs (Option.some.inj (hold.symm.trans hregistered))
  · intro request hrequest clientId htopic
    obtain ⟨s', found, hold, hfound, hopened⟩ := h.opened request hrequest clientId htopic
    have hs : s' ≠ s := by
      rintro rfl
      exact hquiet request hrequest clientId htopic hold
    refine ⟨s', found, ?_, by rwa [Function.update_of_ne hs], hopened⟩
    rw [Function.update_of_ne, hold]
    rintro rfl
    exact hs (Option.some.inj (hold.symm.trans hregistered))
  · refine h.ordered.imp ?_
    intro earlier later hbefore clientId s' htopic htable
    exact hbefore clientId s' htopic (eq_some_of_update_none htable).2
  · intro path clientId info hentry
    have hclient' : clientId ≠ session.clientId := by
      rintro rfl
      rw [hgone] at hentry
      cases hentry
    rw [hentries, if_neg (by simp [hclient'])] at hentry
    rw [Function.update_of_ne hclient']
    exact h.entries path clientId info hentry
  · intro clientId s' found filter htable hfound hafter
    obtain ⟨hclient', hold, hbefore⟩ := hother clientId s' found htable hfound
    rw [hlisted clientId filter hclient'] at hafter
    exact h.covered clientId s' found filter hold hbefore hafter
  · intro hstrict clientId s' found filter htable hfound hmem
    obtain ⟨hclient', hold, hbefore⟩ := hother clientId s' found htable hfound
    rw [hlisted clientId filter hclient']
    exact h.complete hstrict clientId s' found filter hold hbefore hmem

/-- A topic request is executed. -/
theorem execute (h : Tracks strict heap sessions root (request :: requests))
    (hentries : ∀ path clientId info, entryAt root' path clientId = some info →
      entryAt root path clientId = some info ∨
        (sessions clientId = some info.session ∧ ∃ filter, path = tmqTopicSplit filter))
    (hlisted : ∀ clientId filter, listed root' filter clientId = true →
      (request.edits clientId filter).getD (listed root filter clientId) = true)
    (hcomplete : strict → ∀ clientId filter,
      (request.edits clientId filter).getD (listed root filter clientId) = true →
      listed root' filter clientId = true) :
    Tracks strict heap sessions root' requests := by
  refine ⟨h.named, h.texts, h.kept, ?_, h.ordered.tail, ?_, ?_, ?_⟩
  · intro other hother
    exact h.opened other (List.mem_cons_of_mem request hother)
  · intro path clientId info hentry
    rcases hentries path clientId info hentry with hold | ⟨hregistered, hfilter⟩
    · exact h.entries path clientId info hold
    · exact ⟨hfilter, hregistered⟩
  · intro clientId s session filter hregistered hsession hafter
    apply h.covered clientId s session filter hregistered hsession
    rw [listedAfter_dequeue]
    exact listedAfter_mono (hlisted clientId filter) hafter
  · intro hstrict clientId s session filter hregistered hsession hmem
    have hafter := h.complete hstrict clientId s session filter hregistered hsession hmem
    rw [listedAfter_dequeue] at hafter
    exact listedAfter_mono (hcomplete hstrict clientId filter) hafter

end Tracks

/-! ### Every step keeps them together -/

theorem mem_putSubscriptions {subscriptions : Subscriptions} {topics : List TopicFilterQos}
    {filter : Bytes} :
    filter ∈ Broker.putSubscriptions subscriptions topics ↔
      filter ∈ topics.map (fun tf => cstr tf.topicFilter) ∨ filter ∈ subscriptions := by
  induction topics generalizing subscriptions with
  | nil => simp [Broker.putSubscriptions]
  | cons tf topics ih =>
      rw [Broker.putSubscriptions, List.foldl_cons, ← Broker.putSubscriptions, ih, AList.mem_insert,
        List.map_cons, List.mem_cons]
      tauto

theorem mem_eraseSubscriptions {subscriptions : Subscriptions} {topics : List Bytes}
    {filter : Bytes} :
    filter ∈ Broker.eraseSubscriptions subscriptions topics ↔
      filter ∉ topics.map cstr ∧ filter ∈ subscriptions := by
  induction topics generalizing subscriptions with
  | nil => simp [Broker.eraseSubscriptions]
  | cons topicFilter topics ih =>
      rw [Broker.eraseSubscriptions, List.foldl_cons, ← Broker.eraseSubscriptions, ih,
        AList.mem_erase, List.map_cons, List.mem_cons]
      tauto

theorem zero_not_mem_tmpClientPrefix : 0 ∉ tmpClientPrefix := by decide

theorem cstr_clientId (req : ConnectReq π) (conn : ClientConn) :
    cstr (req.clientId conn) = req.clientId conn := by
  have htemporary : cstr (tmpClientPrefix ++ cstr conn.connId ++ [93])
      = tmpClientPrefix ++ cstr conn.connId ++ [93] := by
    rw [cstr_eq_self_iff, List.mem_append, List.mem_append]
    simp [zero_not_mem_tmpClientPrefix, zero_not_mem_cstr]
  unfold ConnectReq.clientId
  split
  · exact htemporary
  · exact htemporary
  · exact cstr_cstr _

namespace Broker

variable [TmqString π] {config : BrokerConfig π J} {broker next : Broker π} {label : Label π}

/-- Every filter of a SUBSCRIBE that is executed reaches the tree, or is there
already. -/
def ReachesTree (config : BrokerConfig π J) (broker : Broker π) : Label π → Prop
  | .execute _ => ∀ clientId pkt requests s session,
      broker.requests = .subscribe clientId pkt :: requests → broker.sessions clientId = some s →
      broker.heap s = some session → ∀ tf ∈ pkt.topics,
      (cstr tf.topicFilter ≠ [] ∧ config.aclDenies session tf.topicFilter .sub = false) ∨
        listed broker.topicsTree.root tf.topicFilter clientId = true
  | _ => True

def Tracked (strict : Prop) (broker : Broker π) : Prop :=
  Tracks strict broker.heap broker.sessions broker.topicsTree.root broker.requests

omit [TmqString π] in
theorem closes_ne_of_not_pending {responses : List ConnectMail} {requests : List (Request π)}
    {s : Nat} (hfree : s ∉ pendingSessions responses requests) :
    ∀ request ∈ requests, request.closes ≠ some s := by
  intro request hrequest hcloses
  exact hfree (List.mem_append_right _ (List.mem_filterMap.mpr ⟨request, hrequest, hcloses⟩))

/-- A published will leaves the subscriptions alone. -/
theorem entryAt_publishesWill {session : SessionRecord π} {op : SessionReqOp} {topics : Topics π}
    {tasks : List (BroadcastTask π)} {events : List (BrokerEvent π)}
    (hwill : PublishesWill config broker session op topics tasks events) (path : List Bytes)
    (clientId : Bytes) :
    entryAt topics.root path clientId = entryAt broker.topicsTree.root path clientId := by
  cases hwill with
  | silent => rfl
  | publish will req => exact entryAt_publish _ _ _ path clientId

omit [TmqString π] in
/-- A cleanup walks through the list of the session. -/
theorem entryAt_cleanup {session : SessionRecord π} {order : List Bytes} {topics cleaned : Topics π}
    (hname : cstr session.clientId = session.clientId)
    (horder : order.Perm session.subscriptions.keys)
    (hremoved : removeAll session.clientId order topics = some cleaned) (path : List Bytes)
    (clientId : Bytes) :
    entryAt cleaned.root path clientId
      = if path ∈ session.subscriptions.keys.map tmqTopicSplit ∧ clientId = session.clientId then
          none
        else entryAt topics.root path clientId := by
  rw [entryAt_removeAll hremoved, hname]
  simp only [(horder.map tmqTopicSplit).mem_iff]

omit [TmqString π] in
/-- The entries after a SUBSCRIBE of a session. -/
theorem tracked_addTopics {strict : Prop} {s : Nat} {clientId : Bytes} {pkt : SubscribePkt}
    {requests : List (Request π)} {session : SessionRecord π} (hcoherent : broker.Coherent)
    (h : Tracks strict broker.heap broker.sessions broker.topicsTree.root
      (.subscribe clientId pkt :: requests))
    (hregistered : broker.sessions clientId = some s) (hsession : broker.heap s = some session)
    (hreaches : strict → ∀ tf ∈ pkt.topics,
      (cstr tf.topicFilter ≠ [] ∧ config.aclDenies session tf.topicFilter .sub = false) ∨
        listed broker.topicsTree.root tf.topicFilter clientId = true) :
    Tracks strict broker.heap broker.sessions
      (addSubscriptions config session s pkt.topics broker.topicsTree).1.root requests := by
  obtain rfl := hcoherent.registered.clientId_eq hregistered hsession
  have hname := h.named s session hsession
  refine h.execute ?_ ?_ ?_
  · intro path client info hentry
    rcases entryAt_addSubscriptions hentry with hold | ⟨hclient, hinfo, tf, -, hpath⟩
    · exact .inl hold
    · rw [hclient, hname, hinfo]
      exact .inr ⟨hregistered, tf.topicFilter, hpath⟩
  · intro client filter hlisted
    obtain ⟨info, hentry⟩ := Option.isSome_iff_exists.mp hlisted
    rcases entryAt_addSubscriptions hentry with hold | ⟨hclient, -, tf, htf, hpath⟩
    · cases hedits : (Request.subscribe session.clientId pkt : Request π).edits client filter with
      | none => exact Option.isSome_iff_exists.mpr ⟨info, hold⟩
      | some edit =>
          simp only [Request.edits] at hedits
          split at hedits
          · exact (Option.some.inj hedits).symm
          · cases hedits
    · rw [Request.edits, if_pos]
      · rfl
      · rw [hclient, hname]
        refine ⟨rfl, List.mem_map.mpr ⟨tf, htf, ?_⟩⟩
        exact (tmqTopicSplit_inj.mp hpath).symm
  · intro hstrict client filter hedited
    rw [listed, Option.isSome_iff_ne_none]
    simp only [Request.edits] at hedited
    split at hedited
    · rename_i hfilter
      obtain ⟨rfl, hmem⟩ := hfilter
      obtain ⟨tf, htf, hsame⟩ := List.mem_map.mp hmem
      rw [← tmqTopicSplit_inj.mpr hsame]
      rcases hreaches hstrict tf htf with ⟨hnonempty, hpermitted⟩ | halready
      · have hself := @entryAt_addSubscriptions_self _ _ config session s _ broker.topicsTree tf htf
          hnonempty hpermitted
        rw [hname] at hself
        exact hself
      · exact entryAt_addSubscriptions_mono (Option.isSome_iff_ne_none.mp halready)
    · exact entryAt_addSubscriptions_mono (Option.isSome_iff_ne_none.mp hedited)

omit [TmqString π] in
/-- The entries after an UNSUBSCRIBE of a session. -/
theorem tracked_removeTopics {strict : Prop} {clientId : Bytes} {pkt : UnsubscribePkt}
    {requests : List (Request π)} {topics : Topics π}
    (h : Tracks strict broker.heap broker.sessions broker.topicsTree.root
      (.unsubscribe clientId pkt :: requests))
    (hname : cstr clientId = clientId)
    (hremoved : removeAll clientId pkt.topics broker.topicsTree = some topics) :
    Tracks strict broker.heap broker.sessions topics.root requests := by
  have hentries := entryAt_removeAll hremoved
  rw [hname] at hentries
  have hlisted : ∀ client filter, listed topics.root filter client
      = ((Request.unsubscribe clientId pkt : Request π).edits client filter).getD
        (listed broker.topicsTree.root filter client) := by
    intro client filter
    have hmem : tmqTopicSplit filter ∈ pkt.topics.map tmqTopicSplit ↔
        cstr filter ∈ pkt.topics.map cstr := by
      simp only [List.mem_map, tmqTopicSplit_inj]
    rw [listed, hentries, Request.edits]
    by_cases hedits : clientId = client ∧ cstr filter ∈ pkt.topics.map cstr
    · rw [if_pos hedits, if_pos ⟨hmem.mpr hedits.2, hedits.1.symm⟩]
      rfl
    · rw [if_neg hedits, if_neg]
      · rfl
      · rintro ⟨hfilter, hclient⟩
        exact hedits ⟨hclient.symm, hmem.mp hfilter⟩
  refine h.execute ?_ ?_ ?_
  · intro path client info hentry
    rw [hentries] at hentry
    split at hentry
    · cases hentry
    · exact .inl hentry
  · intro client filter hafter
    rw [← hlisted]
    exact hafter
  · intro _ client filter hafter
    rw [hlisted]
    exact hafter

omit [TmqString π] in
/-- A session edits the list of its filters and posts the request for it. -/
theorem tracked_edit {strict : Prop} (hcoherent : broker.Coherent) (h : broker.Tracked strict)
    {k s : Nat} {conn : ClientConn} {session : SessionRecord π}
    (hconn : broker.conns k = some conn) (hgate : conn.connState ≠ .noSession)
    (hup : conn.upstream = .session s) (hsession : broker.heap s = some session)
    {subscriptions : Subscriptions} {request : Request π}
    (htopic : request.topicClient = some session.clientId)
    (htexts : ∀ filter ∈ subscriptions, cstr filter = filter)
    (hlist : ∀ filter, cstr filter ∈ subscriptions ↔
      (request.edits session.clientId filter).getD (cstr filter ∈ session.subscriptions) = true) :
    ((broker.setSession s { session with subscriptions := subscriptions }).post request).Tracked
      strict := by
  obtain ⟨hattached, session', hfound, hopened, -, hregistered⟩ :=
    hcoherent.live_of_gate hconn hgate hup
  obtain rfl := Option.some.inj (hsession.symm.trans hfound)
  refine h.edit hsession hregistered ?_ hopened
    (closes_ne_of_not_pending (hcoherent.attached _ _ hattached).2) htopic rfl rfl rfl htexts hlist
  intro clientId hsame
  exact (hcoherent.registered.clientId_eq hsame hfound).symm

omit [TmqString π] in
theorem Coherent.not_registered_of_free (h : broker.Coherent) {malloc : Nat}
    (hfree : broker.heap malloc = none) (clientId : Bytes) :
    broker.sessions clientId ≠ some malloc := by
  intro hregistered
  obtain ⟨found, hfound, -⟩ := h.registered clientId _ hregistered
  rw [hfree] at hfound
  cases hfound

theorem tracked_startNew {strict : Prop} (hcoherent : broker.Coherent) (h : broker.Tracked strict)
    {malloc k : Nat} {req : ConnectReq π} {requests : List (Request π)} {conn : ClientConn}
    (hrequests : broker.requests = .connect k req :: requests)
    (habsent : broker.sessions (req.clientId conn) = none) (hfree : broker.heap malloc = none)
    {clean sessionPresent : Bool} :
    ((broker.dequeue requests).putNewSession malloc k conn req clean sessionPresent).Tracked
      strict := by
  rw [Tracked, hrequests] at h
  have hunregistered := hcoherent.not_registered_of_free hfree
  rw [Coherent, hrequests] at hcoherent
  have hunheld := hcoherent.dequeue.unheld_of_not_live (not_live_of_free hfree)
  refine (h.dequeue rfl).putNew hfree habsent ?_ (cstr_clientId req conn) rfl
    (closes_ne_of_not_pending hunheld.1)
  exact fun clientId hregistered => absurd hregistered (hunregistered clientId)

/-- A clean session replaces one of the same client that is closed. -/
theorem tracked_restart {strict : Prop} (hcoherent : broker.Coherent) (h : broker.Tracked strict)
    {malloc k s : Nat} {req : ConnectReq π} {requests : List (Request π)} {conn : ClientConn}
    {session : SessionRecord π} {order : List Bytes} {topics : Topics π}
    (hrequests : broker.requests = .connect k req :: requests)
    (hregistered : broker.sessions (req.clientId conn) = some s)
    (hsession : broker.heap s = some session) (hclosed : session.state = .closed)
    (horder : order.Perm session.subscriptions.keys)
    (hremoved : removeAll session.clientId order broker.topicsTree = some topics)
    (hfree : broker.heap malloc = none) {clean sessionPresent : Bool} :
    (((broker.dequeue requests).cleanSession s session topics).putNewSession malloc k conn req clean
      sessionPresent).Tracked strict := by
  rw [Tracked, hrequests] at h
  have hunregistered := hcoherent.not_registered_of_free hfree
  have hnamed : ∀ clientId, broker.sessions clientId = some s → session.clientId = clientId :=
    fun clientId hsame => hcoherent.registered.clientId_eq hsame hsession
  rw [Coherent, hrequests] at hcoherent
  have hclient := hnamed _ hregistered
  have hunheld := hcoherent.dequeue.unheld_of_not_live (not_live_of_free hfree)
  have hdequeued := h.dequeue rfl
  have hcleaned := hdequeued.clean hsession (hclient ▸ hregistered)
    (fun clientId hsame => (hnamed clientId hsame).symm)
    (hdequeued.quiet_of_closed hsession hclosed)
    { session with state := .closed, released := true } rfl rfl rfl
    (entryAt_cleanup (h.named s session hsession) horder hremoved)
  refine hcleaned.putNew ?_ ?_ ?_ (cstr_clientId req conn) rfl
    (closes_ne_of_not_pending hunheld.1)
  · exact (update_of_apply_ne (by simp [hfree, hsession]) _).trans hfree
  · rw [hclient]
    exact Function.update_self ..
  · intro clientId htable
    exact absurd (eq_some_of_update_none htable).2 (hunregistered clientId)

theorem tracked_change {strict : Prop} (hcoherent : broker.Coherent) (h : broker.Tracked strict)
    (hreaches : strict → broker.ReachesTree config label)
    (hchange : Change config broker label next) : next.Tracked strict := by
  cases hchange with
  | unchanged | accept | closeIdle | stop | connectPool | connectRefuse | connectLose
  | disconnectIdle | invalidate | answerEnter | answerRefuse | broadcast => exact h
  | closeAttached | connectPost | disconnectAttached | validate | answerClose => exact h.post rfl
  | subscribe hconn hgate hup hsession =>
      apply tracked_edit hcoherent h hconn hgate hup hsession rfl
      · intro filter hfilter
        rcases mem_putSubscriptions.mp hfilter with hnew | hold
        · obtain ⟨tf, -, rfl⟩ := List.mem_map.mp hnew
          exact cstr_cstr _
        · exact h.texts _ _ hsession filter hold
      · intro filter
        simp only [mem_putSubscriptions, Request.edits, true_and]
        split <;> simp_all
  | unsubscribe hconn hgate hup hsession =>
      apply tracked_edit hcoherent h hconn hgate hup hsession rfl
      · intro filter hfilter
        exact h.texts _ _ hsession filter (mem_eraseSubscriptions.mp hfilter).2
      · intro filter
        simp only [mem_eraseSubscriptions, Request.edits, true_and]
        split <;> simp_all
  | reject hrequests =>
      rw [Tracked, hrequests] at h
      exact h.dequeue rfl
  | startNew hrequests hconn habsent hfree =>
      exact tracked_startNew hcoherent h hrequests habsent hfree
  | restart hrequests hconn hregistered hsession hclosed hclean horder hremoved hfree =>
      exact tracked_restart hcoherent h hrequests hregistered hsession hclosed horder hremoved hfree
  | resume hrequests hconn hregistered hsession hclosed =>
      rw [Tracked, hrequests] at h
      exact (h.dequeue rfl).setSession hsession rfl rfl rfl
        ((h.dequeue rfl).quiet_of_closed hsession hclosed)
  | closeKeep hrequests hsession hkeep hwill =>
      rw [Tracked, hrequests] at h
      exact ((h.dequeue rfl).setRoot (entryAt_publishesWill hwill)).setSession hsession rfl rfl rfl
        h.quiet_of_close
  | closeClean hrequests hsession hclean hwill horder hremoved =>
      rw [Tracked, hrequests] at h
      have hcoherent' := hcoherent
      rw [Coherent, hrequests] at hcoherent'
      obtain ⟨k, found, hfound, -, -, hregistered⟩ := hcoherent'.live_of_dequeue rfl
      obtain rfl := Option.some.inj (hsession.symm.trans hfound)
      exact ((h.dequeue rfl).setRoot (entryAt_publishesWill hwill)).clean hsession hregistered
        (fun clientId hsame => (hcoherent.registered.clientId_eq hsame hsession).symm)
        h.quiet_of_close _ rfl rfl rfl (entryAt_cleanup (h.named _ _ hsession) horder hremoved)
  | @dropTopics run request clientId requests hrequests htopic hnone =>
      -- a topic request waits only for an open session
      rw [Tracked, hrequests] at h
      have hclient : request.topicClient = some clientId := by
        rcases htopic with ⟨pkt, rfl⟩ | ⟨pkt, rfl⟩ <;> rfl
      obtain ⟨s, session, hregistered, hsession, hopened⟩ :=
        h.opened request List.mem_cons_self clientId hclient
      rw [hnone s session hregistered hsession] at hopened
      cases hopened
  | addTopics hrequests hregistered hsession hopened hconn =>
      rw [Tracked, hrequests] at h
      apply tracked_addTopics hcoherent h hregistered hsession
      intro hstrict
      exact hreaches hstrict _ _ _ _ _ hrequests hregistered hsession
  | removeTopics hrequests hregistered hsession hopened hremoved =>
      rw [Tracked, hrequests] at h
      have hname := h.named _ _ hsession
      rw [hcoherent.registered.clientId_eq hregistered hsession] at hname
      have htracked := tracked_removeTopics h hname hremoved
      exact htracked
  | publish hqueues => exact h.setRoot fun path clientId => entryAt_publish _ _ _ path clientId

omit [TmqString π] in
theorem tracked_init (strict : Prop) : (init : Broker π).Tracked strict := by
  refine ⟨nofun, nofun, nofun, nofun, .nil, ?_, nofun, fun _ => nofun⟩
  intro path clientId info hentry
  change entryAt (.leaf .new) path clientId = some info at hentry
  rw [entryAt, dataAt_leaf_new] at hentry
  cases hentry

/-- In every run, what the tree holds for a client is the session that the
table holds for it, and no session that was released. -/
theorem entries_registered (config : BrokerConfig π J) (labels : List (Label π))
    {broker : Broker π} (hrun : Run.runs (step config) init labels = some broker)
    {path : List Bytes} {subscribers : SubscribeMap}
    (hsubscribers : (dataAt broker.topicsTree.root path).subscribers = some subscribers)
    {clientId : Bytes} {info : SubscribeInfo} (hinfo : subscribers.lookup clientId = some info) :
    broker.sessions clientId = some info.session ∧
      ∃ session, broker.heap info.session = some session ∧ session.clientId = clientId ∧
        session.released = false := by
  have hinv : broker.Coherent ∧ broker.Tracked False := by
    refine @Run.runs_maintains _ _ (step config)
      (fun state => state.Coherent ∧ state.Tracked False) ?_ _ _ _
      ⟨coherent_init, tracked_init False⟩ hrun
    rintro state label next ⟨hcoherent, htracked⟩ hstep
    have hchange := step_change hstep
    exact ⟨coherent_change hcoherent hchange, tracked_change hcoherent htracked nofun hchange⟩
  obtain ⟨hcoherent, htracked⟩ := hinv
  have hentry : entryAt broker.topicsTree.root path clientId = some info := by
    rw [entryAt, hsubscribers, Option.bind_some, hinfo]
  obtain ⟨-, hregistered⟩ := htracked.entries path clientId info hentry
  exact ⟨hregistered, hcoherent.registered clientId info.session hregistered⟩

def NoTopicRequest (broker : Broker π) (clientId : Bytes) : Prop :=
  ∀ request ∈ broker.requests, request.topicClient ≠ some clientId

/-- The tree lists every session whose topic requests are done under the
filters of its own list and under no others. -/
def ListsEqualTree (broker : Broker π) : Prop :=
  ∀ s session, broker.heap s = some session → session.released = false →
    broker.NoTopicRequest session.clientId → ∀ path,
    SubscribedAt broker.topicsTree.root path session.clientId ↔
      ∃ filter ∈ session.subscriptions, path = tmqTopicSplit filter

omit [TmqString π] in
theorem subscribedAt_iff {root : TopicNode π} {path : List Bytes} {clientId : Bytes} :
    SubscribedAt root path clientId ↔ entryAt root path clientId ≠ none := by
  unfold SubscribedAt entryAt
  cases (dataAt root path).subscribers <;> simp

omit [TmqString π] in
theorem Tracked.listsEqualTree (h : broker.Tracked True) : broker.ListsEqualTree := by
  intro s session hsession hkept hquiet path
  have hregistered := h.kept s session hsession hkept
  rw [subscribedAt_iff]
  constructor
  · intro hentry
    obtain ⟨info, hinfo⟩ := Option.ne_none_iff_exists'.mp hentry
    obtain ⟨filter, rfl⟩ := (h.entries path _ info hinfo).1
    refine ⟨cstr filter, ?_, by rw [tmqTopicSplit_inj, cstr_cstr]⟩
    apply h.covered _ s session filter hregistered hsession
    rw [listedAfter_of_quiet hquiet]
    exact Option.isSome_iff_ne_none.mpr hentry
  · rintro ⟨filter, hfilter, rfl⟩
    have hlisted := h.complete trivial _ s session filter hregistered hsession
      (by rwa [h.texts s session hsession filter hfilter])
    rw [listedAfter_of_quiet hquiet] at hlisted
    exact Option.isSome_iff_ne_none.mp hlisted

/-- In every run in which the filters that are subscribed reach the tree, the
two records agree. -/
theorem listsEqualTree_of_reachesTree (config : BrokerConfig π J) (labels : List (Label π))
    (hlabels : Run.Admissible (ReachesTree config) (step config) init labels) {broker : Broker π}
    (hrun : Run.runs (step config) init labels = some broker) : broker.ListsEqualTree := by
  have hinv : broker.Coherent ∧ broker.Tracked True := by
    refine @Run.runs_preserves _ _ _ _
      (fun state => state.Coherent ∧ state.Tracked True) ?_ _ _ _
      ⟨coherent_init, tracked_init True⟩ hlabels hrun
    rintro state label next ⟨hcoherent, htracked⟩ hreaches hstep
    have hchange := step_change hstep
    exact ⟨coherent_change hcoherent hchange,
      tracked_change hcoherent htracked (fun _ => hreaches) hchange⟩
  exact hinv.2.listsEqualTree

def connectThenSubscribe : List (Label Bytes) :=
  [.accept 0 [], .connect 0 (connectFrom [65] true) false, .execute (sampleExecution 7),
    .connectComplete 0, .subscribe 0 ⟨1, [⟨[116], 0⟩]⟩, .execute (sampleExecution 0)]

theorem entries_registered_connectThenSubscribe :
    ∃ broker, Run.runs (step sampleConfig) init connectThenSubscribe = some broker ∧
      broker.sessions [65] = some 7 := by
  refine ⟨_, rfl, ?_⟩
  exact (@entries_registered _ _ _ sampleConfig connectThenSubscribe _ rfl [[116]] _ rfl [65]
    ⟨7, 0⟩ rfl).1

theorem listsEqualTree_connectThenSubscribe :
    ∃ broker, Run.runs (step sampleConfig) init connectThenSubscribe = some broker ∧
      broker.ListsEqualTree := by
  refine ⟨_, rfl, ?_⟩
  refine listsEqualTree_of_reachesTree sampleConfig connectThenSubscribe
    ⟨trivial, trivial, ?_, trivial, trivial, ?_, trivial⟩ rfl
  · intro clientId pkt requests s session hrequests
    cases hrequests
  · intro clientId pkt requests s session hrequests hregistered hsession tf htf
    obtain ⟨hrequest, -⟩ := List.cons.inj hrequests
    obtain ⟨rfl, rfl⟩ := Request.subscribe.inj hrequest
    rw [List.mem_singleton.mp htf]
    exact .inl ⟨by decide, rfl⟩

/-- A configuration in which access control denies every filter. -/
def denyingConfig : BrokerConfig Bytes Unit :=
  { sampleConfig with aclDenies := fun _ _ _ => true }

/-- The session lists a filter that was denied, and the tree does not. -/
theorem not_listsEqualTree_denied :
    ∃ broker, Run.runs (step denyingConfig) init connectThenSubscribe = some broker ∧
      ¬ broker.ListsEqualTree := by
  refine ⟨_, rfl, ?_⟩
  intro h
  have hlisted := (h 7 _ rfl rfl nofun [[116]]).mpr ⟨[116], by decide, rfl⟩
  rw [subscribedAt_iff] at hlisted
  exact hlisted rfl

end Broker

end TinyMqtt
