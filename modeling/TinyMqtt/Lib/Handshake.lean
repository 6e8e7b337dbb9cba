import Mathlib.Data.Finset.Insert
import Mathlib.Data.List.Nodup
import Mathlib.Tactic

/-!
A two-phase handshake that passes each message on exactly once over links that
lose what is in transit. The sender keeps a queue of entries, of which the
first `window` ones may be on their way; a message entry is replaced by a
release entry when the receiver has answered it, and the release entry leaves
the queue when it is answered in turn. The receiver remembers the identifiers
of the messages it has passed on until they are released. Entries that take no
part in the handshake may share the queue and its identifiers.
-/

namespace Handshake

inductive Entry (ι μ : Type*) where
  | message (id : ι) (content : μ)
  | release (id : ι)
  | plain (id : ι)
  deriving DecidableEq

inductive Phase where
  | message | release
  deriving DecidableEq

variable {ι μ : Type*}

def Entry.id : Entry ι μ → ι
  | .message id _ => id
  | .release id => id
  | .plain id => id

def Entry.key? : Entry ι μ → Option (Phase × ι)
  | .message id _ => some (.message, id)
  | .release id => some (.release, id)
  | .plain _ => none

def keys (entries : List (Entry ι μ)) : List (Phase × ι) := entries.filterMap Entry.key?

/-- The two parties and what is in transit between them. -/
structure State (ι μ : Type*) where
  window : Nat
  queue : List (Entry ι μ)
  requests : List (Entry ι μ)
  answers : List (Phase × ι)
  known : Finset ι
  submitted : List μ
  accepted : List μ

theorem mem_keys {entries : List (Entry ι μ)} {key : Phase × ι} :
    key ∈ keys entries ↔ ∃ entry ∈ entries, entry.key? = some key := by
  simp [keys]

theorem Entry.id_of_key? {entry : Entry ι μ} {phase : Phase} {id : ι}
    (hkey : entry.key? = some (phase, id)) : entry.id = id := by
  cases entry with
  | message id' content => exact congrArg Prod.snd (Option.some.inj hkey)
  | release id' => exact congrArg Prod.snd (Option.some.inj hkey)
  | plain id' => cases hkey

/-- Distinct identifiers give distinct keys. -/
theorem nodup_keys {entries : List (Entry ι μ)} (hids : (entries.map Entry.id).Nodup) :
    (keys entries).Nodup := by
  refine List.Pairwise.filterMap Entry.key? ?_ (List.pairwise_map.mp hids)
  rintro entry other hne ⟨phase, id⟩ hkey ⟨phase', id'⟩ hkey' heq
  obtain ⟨rfl, rfl⟩ := Prod.mk.inj heq
  exact hne ((Entry.id_of_key? hkey).trans (Entry.id_of_key? hkey').symm)

/-- Removing one element pulls the others forward. -/
theorem mem_take_remove {before after : List (Entry ι μ)} {removed entry : Entry ι μ} {n : Nat}
    (hmem : entry ∈ (before ++ removed :: after).take n) :
    entry = removed ∨ entry ∈ (before ++ after).take n := by
  induction before generalizing n with
  | nil =>
      cases n with
      | zero => simp at hmem
      | succ n =>
          rcases List.mem_cons.mp hmem with rfl | hmem
          · exact .inl rfl
          · exact .inr ((List.take_sublist_take_left (Nat.le_succ n)).subset hmem)
  | cons first before ih =>
      cases n with
      | zero => simp at hmem
      | succ n =>
          rcases List.mem_cons.mp hmem with rfl | hmem
          · exact .inr (by simp)
          · exact (ih hmem).imp_right fun h => by simp [h]

variable [DecidableEq ι] [DecidableEq μ]

namespace State

def transit (s : State ι μ) : List (Phase × ι) := keys s.requests ++ s.answers

/-- The identifiers the receiver knows belong to queued entries of the
handshake, `exempt` apart. -/
def Covered (s : State ι μ) (exempt : Option ι) : Prop :=
  ∀ id ∈ s.known, some id = exempt ∨ ∃ entry ∈ s.queue, entry.id = id ∧ entry.key?.isSome

structure Inv (s : State ι μ) : Prop where
  ids : (s.queue.map Entry.id).Nodup
  once : s.transit.Nodup
  inflight : ∀ key ∈ s.transit, key ∈ keys (s.queue.take s.window)
  requested : ∀ entry ∈ s.requests, entry ∈ s.queue ∧ entry.key?.isSome
  received : ∀ id, (Phase.message, id) ∈ s.answers → id ∈ s.known
  released : ∀ id, (Phase.release, id) ∈ s.answers → id ∉ s.known
  counted : ∀ id content, Entry.message id content ∈ s.queue →
    s.accepted.count content = if id ∈ s.known then 1 else 0
  separate : ∀ id id' content, Entry.message id content ∈ s.queue →
    Entry.message id' content ∈ s.queue → id = id'
  queued : ∀ id content, Entry.message id content ∈ s.queue → content ∈ s.submitted
  subset : ∀ content ∈ s.accepted, content ∈ s.submitted
  done : ∀ content ∈ s.submitted, (∀ id, Entry.message id content ∉ s.queue) →
    s.accepted.count content = 1

namespace Inv

variable {s : State ι μ}

/-- An identifier belongs to one entry of the queue. -/
theorem unique (h : s.Inv) {entry other : Entry ι μ} (hentry : entry ∈ s.queue)
    (hother : other ∈ s.queue) (hid : entry.id = other.id) : entry = other :=
  List.inj_on_of_nodup_map h.ids hentry hother hid

/-- A key in transit belongs to a queued entry. -/
theorem exists_of_transit (h : s.Inv) {key : Phase × ι} (hkey : key ∈ s.transit) :
    ∃ entry ∈ s.queue, entry.key? = some key := by
  obtain ⟨entry, hentry, hmatch⟩ := mem_keys.mp (h.inflight key hkey)
  exact ⟨entry, List.mem_of_mem_take hentry, hmatch⟩

theorem not_transit_of_id (h : s.Inv) {entry : Entry ι μ}
    (hid : ∀ other ∈ s.queue.take s.window, other.id ≠ entry.id) {key : Phase × ι}
    (hkey : entry.key? = some key) : key ∉ s.transit := by
  intro hmem
  obtain ⟨other, hother, hmatch⟩ := mem_keys.mp (h.inflight key hmem)
  obtain ⟨phase, id⟩ := key
  exact hid other hother ((Entry.id_of_key? hmatch).trans (Entry.id_of_key? hkey).symm)

/-- The first entry behind the window is not in transit. -/
theorem not_transit_of_waiting (h : s.Inv) {entry : Entry ι μ}
    (hwaiting : s.queue[s.window]? = some entry) {key : Phase × ι}
    (hkey : entry.key? = some key) : key ∉ s.transit := by
  refine h.not_transit_of_id ?_ hkey
  intro other hother hid
  obtain ⟨hlt, hget⟩ := List.getElem?_eq_some_iff.mp hwaiting
  have hids := h.ids
  rw [← List.take_append_drop s.window s.queue, List.map_append, List.nodup_append] at hids
  refine hids.2.2 other.id (List.mem_map_of_mem hother) entry.id (List.mem_map_of_mem ?_) hid
  rw [List.drop_eq_getElem_cons hlt, hget]
  exact List.mem_cons_self

/-- A link may lose what is in transit. -/
theorem lose (h : s.Inv) {requests : List (Entry ι μ)} {answers : List (Phase × ι)}
    (hrequests : requests.Sublist s.requests) (hanswers : answers.Sublist s.answers) :
    Inv { s with requests := requests, answers := answers } := by
  have htransit : (keys requests ++ answers).Sublist s.transit :=
    (hrequests.filterMap _).append hanswers
  exact
    { h with
      once := h.once.sublist htransit
      inflight := fun key hkey => h.inflight key (htransit.subset hkey)
      requested := fun entry hentry => h.requested entry (hrequests.subset hentry)
      received := fun id hid => h.received id (hanswers.subset hid)
      released := fun id hid => h.released id (hanswers.subset hid) }

/-- The sender may send any entry of the window that is not in transit. -/
theorem send (h : s.Inv) {entry : Entry ι μ} {key : Phase × ι}
    (hkey : entry.key? = some key) (hentry : entry ∈ s.queue.take s.window)
    (hfresh : key ∉ s.transit) : Inv { s with requests := s.requests ++ [entry] } := by
  have htransit : (keys (s.requests ++ [entry]) ++ s.answers).Perm (key :: s.transit) := by
    simp only [keys, List.filterMap_append, List.filterMap_cons, hkey, List.filterMap_nil,
      transit, List.append_assoc, List.singleton_append]
    exact List.perm_middle
  exact
    { h with
      once := htransit.nodup_iff.mpr (List.nodup_cons.mpr ⟨hfresh, h.once⟩)
      inflight := by
        intro other hother
        rcases List.mem_cons.mp (htransit.mem_iff.mp hother) with rfl | hother
        · exact mem_keys.mpr ⟨entry, hentry, hkey⟩
        · exact h.inflight other hother
      requested := by
        intro other hother
        rcases List.mem_append.mp hother with hother | hother
        · exact h.requested other hother
        · obtain rfl : other = entry := by simpa using hother
          exact ⟨List.mem_of_mem_take hentry, by simp [hkey]⟩ }

/-- A new connection starts with the entries of the window and nothing else
in transit. -/
theorem restart (h : s.Inv) {requests : List (Entry ι μ)}
    (hrequests : requests = (s.queue.take s.window).filter (·.key?.isSome)) :
    Inv { s with requests := requests, answers := [] } := by
  have hkeys : keys requests ++ [] = keys (s.queue.take s.window) := by
    rw [hrequests, List.append_nil, keys, keys, List.filterMap_filter]
    refine List.filterMap_congr fun entry _ => ?_
    cases entry <;> rfl
  exact
    { h with
      once := by
        rw [transit, hkeys]
        exact nodup_keys (h.ids.sublist ((List.take_sublist _ _).map _))
      inflight := by
        intro key hkey
        rwa [transit, hkeys] at hkey
      requested := by
        intro entry hentry
        rw [hrequests, List.mem_filter] at hentry
        exact ⟨List.mem_of_mem_take hentry.1, hentry.2⟩
      received := fun id hid => by simp at hid
      released := fun id hid => by simp at hid }

/-- A new entry with an unused identifier joins the queue. A message must be
new, and the receiver must not know its identifier. -/
theorem enqueue (h : s.Inv) {entry : Entry ι μ} {submitted : List μ}
    (hid : entry.id ∉ s.queue.map Entry.id)
    (hmessage : ∀ id content, entry = .message id content →
      content ∉ s.submitted ∧ id ∉ s.known)
    (hsubmitted : ∀ content, content ∈ submitted ↔
      content ∈ s.submitted ∨ ∃ id, entry = .message id content) :
    Inv { s with queue := s.queue ++ [entry], submitted := submitted } := by
  have hcases : ∀ {other : Entry ι μ}, other ∈ s.queue ++ [entry] → other ∈ s.queue ∨ other = entry := by
    intro other hother
    simpa using hother
  have hnew : ∀ content, content ∉ s.submitted → s.accepted.count content = 0 := by
    intro content hcontent
    exact List.count_eq_zero.mpr fun hmem => hcontent (h.subset content hmem)
  exact
    { ids := by
        rw [List.map_append, List.nodup_append]
        refine ⟨h.ids, by simp, ?_⟩
        rintro id hmem other hother rfl
        obtain rfl : id = entry.id := by simpa using hother
        exact hid hmem
      once := h.once
      inflight := by
        intro key hkey
        obtain ⟨other, hother, hmatch⟩ := mem_keys.mp (h.inflight key hkey)
        refine mem_keys.mpr ⟨other, ?_, hmatch⟩
        exact ((List.prefix_append s.queue [entry]).take _).subset hother
      requested := fun other hother =>
        ⟨List.mem_append_left _ (h.requested other hother).1, (h.requested other hother).2⟩
      received := h.received
      released := h.released
      counted := by
        intro id content hmem
        rcases hcases hmem with hmem | rfl
        · exact h.counted id content hmem
        · obtain ⟨hcontent, hknown⟩ := hmessage id content rfl
          rw [hnew content hcontent, if_neg hknown]
      separate := by
        intro id id' content hmem hmem'
        rcases hcases hmem with hold | hnewest
        · rcases hcases hmem' with hold' | hnewest'
          · exact h.separate id id' content hold hold'
          · exact ((hmessage id' content hnewest'.symm).1 (h.queued id content hold)).elim
        · rcases hcases hmem' with hold' | hnewest'
          · exact ((hmessage id content hnewest.symm).1 (h.queued id' content hold')).elim
          · exact (Entry.message.inj (hnewest.trans hnewest'.symm)).1
      queued := by
        intro id content hmem
        rw [hsubmitted]
        exact (hcases hmem).imp (h.queued id content) fun heq => ⟨id, heq.symm⟩
      subset := fun content hcontent => (hsubmitted content).mpr (.inl (h.subset content hcontent))
      done := by
        intro content hcontent habsent
        rcases (hsubmitted content).mp hcontent with hcontent | ⟨id, rfl⟩
        · exact h.done content hcontent fun id hmem => habsent id (List.mem_append_left _ hmem)
        · exact (habsent id (by simp)).elim }

/-- An answered entry leaves the queue together with its answer. A message
leaves only after the receiver has it. -/
theorem remove (h : s.Inv) {before after : List (Entry ι μ)} {entry : Entry ι μ}
    {answers : List (Phase × ι)} (hqueue : s.queue = before ++ entry :: after)
    (hanswers : s.answers = entry.key?.toList ++ answers)
    (hmessage : ∀ id content, entry = .message id content → id ∈ s.known) :
    Inv { s with queue := before ++ after, answers := answers } := by
  have hsub : (before ++ after).Sublist s.queue := by
    rw [hqueue]
    exact (List.sublist_cons_self entry after).append_left before
  have htransit : (keys s.requests ++ answers).Sublist s.transit := by
    rw [transit, hanswers]
    exact (List.sublist_append_right _ _).append_left _
  have hanswersSub : answers.Sublist s.answers := by
    rw [hanswers]
    exact List.sublist_append_right _ _
  have hother : ∀ key ∈ keys s.requests ++ answers, entry.key? ≠ some key := by
    intro key hkey hmatch
    have honce := h.once
    rw [transit, hanswers, hmatch] at honce
    exact (List.nodup_middle.mp honce).notMem hkey
  exact
    { ids := h.ids.sublist (hsub.map _)
      once := h.once.sublist htransit
      inflight := by
        intro key hkey
        obtain ⟨other, hmem, hmatch⟩ := mem_keys.mp (h.inflight key (htransit.subset hkey))
        rw [hqueue] at hmem
        rcases mem_take_remove hmem with rfl | hmem
        · exact (hother key hkey hmatch).elim
        · exact mem_keys.mpr ⟨other, hmem, hmatch⟩
      requested := by
        intro other hmem
        obtain ⟨hqueued, hactive⟩ := h.requested other hmem
        refine ⟨?_, hactive⟩
        rw [hqueue] at hqueued
        rcases List.mem_append.mp hqueued with hqueued | hqueued
        · exact List.mem_append_left _ hqueued
        · rcases List.mem_cons.mp hqueued with rfl | hqueued
          · obtain ⟨key, hmatch⟩ := Option.isSome_iff_exists.mp hactive
            exact (hother key (List.mem_append_left _ (mem_keys.mpr ⟨_, hmem, hmatch⟩)) hmatch).elim
          · exact List.mem_append_right _ hqueued
      received := fun id hid => h.received id (hanswersSub.subset hid)
      released := fun id hid => h.released id (hanswersSub.subset hid)
      counted := fun id content hmem => h.counted id content (hsub.subset hmem)
      separate := fun id id' content hmem hmem' =>
        h.separate id id' content (hsub.subset hmem) (hsub.subset hmem')
      queued := fun id content hmem => h.queued id content (hsub.subset hmem)
      subset := h.subset
      done := by
        intro content hcontent habsent
        by_cases hentry : ∃ id, entry = .message id content
        · obtain ⟨id, rfl⟩ := hentry
          have hcount := h.counted id content (by rw [hqueue]; simp)
          rwa [if_pos (hmessage id content rfl)] at hcount
        · refine h.done content hcontent fun id hmem => ?_
          rw [hqueue, List.mem_append, List.mem_cons] at hmem
          rcases hmem with hmem | heq | hmem
          · exact habsent id (List.mem_append_left _ hmem)
          · exact hentry ⟨id, heq.symm⟩
          · exact habsent id (List.mem_append_right _ hmem) }

omit [DecidableEq ι] [DecidableEq μ] in
/-- Moving the answer to the first request behind the other answers keeps what
is in transit. -/
theorem transit_answer {request : Entry ι μ} {requests : List (Entry ι μ)} {key : Phase × ι}
    (hrequests : s.requests = request :: requests) (hkey : request.key? = some key) :
    (keys requests ++ (s.answers ++ [key])).Perm s.transit := by
  simp only [transit, hrequests, keys, List.filterMap_cons, hkey, List.cons_append]
  rw [← List.append_assoc]
  exact List.perm_append_singleton _ _

/-- The receiver passes a message on unless it knows its identifier, and
answers it in any case. -/
theorem receiveMessage (h : s.Inv) {id : ι} {content : μ} {requests : List (Entry ι μ)}
    (hrequests : s.requests = .message id content :: requests) :
    Inv { s with
      requests := requests
      answers := s.answers ++ [(.message, id)]
      known := insert id s.known
      accepted := if id ∈ s.known then s.accepted else s.accepted ++ [content] } := by
  have hperm := transit_answer hrequests rfl
  have hentry : Entry.message id content ∈ s.queue :=
    (h.requested _ (by simp [hrequests])).1
  have hother : ∀ id' content', Entry.message id' content' ∈ s.queue → content' ≠ content →
      id' ≠ id := by
    rintro id' content' hmem hne rfl
    exact hne (Entry.message.inj (h.unique hmem hentry rfl)).2
  have hcount : ∀ content', content' ≠ content →
      (if id ∈ s.known then s.accepted else s.accepted ++ [content]).count content'
        = s.accepted.count content' := by
    intro content' hne
    split
    · rfl
    · simp [List.count_append, hne.symm]
  have hself : (if id ∈ s.known then s.accepted else s.accepted ++ [content]).count content = 1 := by
    have hbefore := h.counted id content hentry
    split
    · rename_i hknown
      rwa [if_pos hknown] at hbefore
    · rename_i hknown
      rw [if_neg hknown] at hbefore
      simp [List.count_append, hbefore]
  exact
    { ids := h.ids
      once := hperm.nodup_iff.mpr h.once
      inflight := fun key hkey => h.inflight key (hperm.mem_iff.mp hkey)
      requested := fun other hmem => h.requested other (by simp [hrequests, hmem])
      received := by
        intro id' hid'
        rcases List.mem_append.mp hid' with hid' | hid'
        · exact Finset.mem_insert_of_mem (h.received id' hid')
        · obtain rfl : id' = id := by simpa using hid'
          exact Finset.mem_insert_self _ _
      released := by
        intro id' hid'
        have hid' : (Phase.release, id') ∈ s.answers := by simpa using hid'
        obtain ⟨other, hmem, hmatch⟩ := h.exists_of_transit (List.mem_append_right _ hid')
        have hne : id' ≠ id := by
          rintro rfl
          obtain rfl := h.unique hmem hentry (Entry.id_of_key? hmatch)
          cases hmatch
        simp [hne, h.released id' hid']
      counted := by
        intro id' content' hmem
        by_cases hsame : content' = content
        · subst hsame
          obtain rfl := h.separate id' id content' hmem hentry
          rw [hself, if_pos (Finset.mem_insert_self _ _)]
        · have hne := hother id' content' hmem hsame
          rw [hcount content' hsame, h.counted id' content' hmem]
          simp [hne]
      separate := h.separate
      queued := h.queued
      subset := by
        intro content' hmem
        by_cases hsame : content' = content
        · exact hsame ▸ h.queued id content hentry
        · refine h.subset content' (List.count_pos_iff.mp ?_)
          rw [← hcount content' hsame]
          exact List.count_pos_iff.mpr hmem
      done := by
        intro content' hsubmitted habsent
        have hne : content' ≠ content := by
          rintro rfl
          exact habsent id hentry
        exact (hcount content' hne).trans (h.done content' hsubmitted habsent) }

/-- The receiver forgets a released identifier and answers the release. -/
theorem receiveRelease (h : s.Inv) {id : ι} {requests : List (Entry ι μ)}
    (hrequests : s.requests = .release id :: requests) :
    Inv { s with
      requests := requests
      answers := s.answers ++ [(.release, id)]
      known := s.known.erase id } := by
  have hperm := transit_answer hrequests rfl
  have hentry : Entry.release id ∈ s.queue := (h.requested _ (by simp [hrequests])).1
  have hother : ∀ id' content', Entry.message id' content' ∈ s.queue → id' ≠ id := by
    rintro id' content' hmem rfl
    cases h.unique hmem hentry rfl
  exact
    { h with
      once := hperm.nodup_iff.mpr h.once
      inflight := fun key hkey => h.inflight key (hperm.mem_iff.mp hkey)
      requested := fun other hmem => h.requested other (by simp [hrequests, hmem])
      received := by
        intro id' hid'
        have hid' : (Phase.message, id') ∈ s.answers := by simpa using hid'
        obtain ⟨other, hmem, hmatch⟩ := h.exists_of_transit (List.mem_append_right _ hid')
        have hne : id' ≠ id := by
          rintro rfl
          obtain rfl := h.unique hmem hentry (Entry.id_of_key? hmatch)
          cases hmatch
        exact Finset.mem_erase_of_ne_of_mem hne (h.received id' hid')
      released := by
        intro id' hid'
        rcases List.mem_append.mp hid' with hid' | hid'
        · exact fun hmem => h.released id' hid' (Finset.mem_of_mem_erase hmem)
        · obtain rfl : id' = id := by simpa using hid'
          exact Finset.notMem_erase _ _
      counted := by
        intro id' content' hmem
        rw [h.counted id' content' hmem]
        simp [hother id' content' hmem] }

end Inv

namespace Covered

variable {s : State ι μ} {exempt : Option ι}

omit [DecidableEq ι] [DecidableEq μ] in
theorem enqueue (h : s.Covered exempt) (entry : Entry ι μ) (submitted : List μ) :
    Covered { s with queue := s.queue ++ [entry], submitted := submitted } exempt := by
  intro id hid
  refine (h id hid).imp_right ?_
  rintro ⟨other, hother, hmatch⟩
  exact ⟨other, List.mem_append_left _ hother, hmatch⟩

omit [DecidableEq ι] [DecidableEq μ] in
/-- The release of the exempt identifier covers it. -/
theorem enqueueRelease {id : ι} (h : s.Covered (some id)) :
    Covered { s with queue := s.queue ++ [.release id] } none := by
  intro id' hid'
  rcases h id' hid' with heq | ⟨other, hother, hmatch⟩
  · obtain rfl := Option.some.inj heq
    exact .inr ⟨.release id', by simp, rfl, rfl⟩
  · exact .inr ⟨other, List.mem_append_left _ hother, hmatch⟩

omit [DecidableEq ι] [DecidableEq μ] in
theorem remove (h : s.Covered none) {before after : List (Entry ι μ)} {entry : Entry ι μ}
    (hqueue : s.queue = before ++ entry :: after) (answers : List (Phase × ι))
    (hentry : entry.key?.isSome → entry.id ∈ s.known → some entry.id = exempt) :
    Covered { s with queue := before ++ after, answers := answers } exempt := by
  intro id hid
  rcases h id hid with heq | ⟨other, hother, rfl, hactive⟩
  · cases heq
  · rw [hqueue, List.mem_append, List.mem_cons] at hother
    rcases hother with hother | rfl | hother
    · exact .inr ⟨other, List.mem_append_left _ hother, rfl, hactive⟩
    · exact .inl (hentry hactive hid)
    · exact .inr ⟨other, List.mem_append_right _ hother, rfl, hactive⟩

end Covered

end State

end Handshake
