import Mathlib.Data.Finset.Insert
import TinyMqtt.Lib.Run

/-!
A mailbox with its notifier (`mqtt/mqtt_io_context.c`, `ev/mqtt_event.c`). Any
number of threads push mails: each appends its mail under the lock and then
writes to the notifier's pipe. The thread of the event loop reads the pipe when
it holds data, takes all mails under the lock and hands them to the handler one
by one. The handler may push mails itself.

A pipe is the number of bytes it holds. It takes a notification of four bytes
as a whole, or fails without effect when there is no room for it.
-/

namespace TinyMqtt

variable {μ : Type}

/-- Where the thread of the event loop stands, with the mails of the current
batch that are left. -/
inductive LoopThread (μ : Type) where
  /-- in `epoll_wait` -/
  | polling
  /-- `tmq_notifier_on_notify` has read the pipe, `mail_callback` is to follow -/
  | notified
  /-- at the head of the loop of `mail_callback` -/
  | handling (mails : List μ)
  /-- in the handler of a mail -/
  | inHandler (mails : List μ)
  /-- the handler has appended a mail and is to write to the pipe -/
  | pushing (mails : List μ)

/-- `tmq_mailbox_t`, its pipe and its threads, with the mails appended and the
mails handed to the handler so far. -/
structure TmqMailbox (μ : Type) where
  mailbox : List μ
  wakeupPipe : Nat
  /-- the threads between their append and their write -/
  pushing : Finset Nat
  loop : LoopThread μ
  pushed : List μ
  handled : List μ

namespace TmqMailbox

def tmqMailboxInit : TmqMailbox μ := ⟨[], 0, ∅, .polling, [], []⟩

/-- The append of `tmq_mailbox_push`. -/
def append (box : TmqMailbox μ) (mail : μ) : TmqMailbox μ :=
  { box with mailbox := box.mailbox ++ [mail], pushed := box.pushed ++ [mail] }

/-- `tmq_notifier_notify`. The result of the write is not looked at. -/
def tmqNotifierNotify (pipeCapacity : Nat) (box : TmqMailbox μ) : TmqMailbox μ :=
  if box.wakeupPipe + 4 ≤ pipeCapacity then { box with wakeupPipe := box.wakeupPipe + 4 } else box

inductive Label (μ : Type) where
  /-- a thread appends a mail -/
  | append (thread : Nat) (mail : μ)
  /-- a thread writes to the pipe -/
  | notify (thread : Nat)
  /-- the handler that is running appends a mail -/
  | handlerAppend (mail : μ)
  /-- the next step of the loop's thread -/
  | loop

/-- The steps of the loop's thread. `epoll_wait` returns only when the pipe
holds data, and `tmq_notifier_on_notify` reads into a buffer of 65535 ints. -/
def loopStep (pipeCapacity : Nat) (box : TmqMailbox μ) : Option (TmqMailbox μ) :=
  match box.loop with
  | .polling =>
      if box.wakeupPipe = 0 then none
      else some { box with
        wakeupPipe := box.wakeupPipe - min box.wakeupPipe (65535 * 4)
        loop := .notified }
  | .notified => some { box with mailbox := [], loop := .handling box.mailbox }
  | .handling [] => some { box with loop := .polling }
  | .handling (mail :: mails) =>
      some { box with loop := .inHandler mails, handled := box.handled ++ [mail] }
  | .inHandler mails => some { box with loop := .handling mails }
  | .pushing mails =>
      some { tmqNotifierNotify pipeCapacity box with loop := .inHandler mails }

def step (pipeCapacity : Nat) (box : TmqMailbox μ) : Label μ → Option (TmqMailbox μ)
  | .append thread mail =>
      if thread ∈ box.pushing then none
      else some { box.append mail with pushing := insert thread box.pushing }
  | .notify thread =>
      if thread ∈ box.pushing then
        some { tmqNotifierNotify pipeCapacity box with pushing := box.pushing.erase thread }
      else none
  | .handlerAppend mail =>
      match box.loop with
      | .inHandler mails => some { box.append mail with loop := .pushing mails }
      | _ => none
  | .loop => box.loopStep pipeCapacity

/-- The mails taken out of the mailbox and not handed to the handler yet. -/
def inHand (box : TmqMailbox μ) : List μ :=
  match box.loop with
  | .handling mails | .inHandler mails | .pushing mails => mails
  | .polling | .notified => []

/-- The loop's thread will look into the mailbox, or somebody will wake it. -/
def Awake (box : TmqMailbox μ) : Prop :=
  0 < box.wakeupPipe ∨ box.pushing.Nonempty ∨ (∃ mails, box.loop = .pushing mails) ∨
    box.loop = .notified

/-- No mail is lost, duplicated or reordered, and a mailbox with mails is
never left asleep. -/
structure Delivers (box : TmqMailbox μ) : Prop where
  order : box.handled ++ (box.inHand ++ box.mailbox) = box.pushed
  awake : box.mailbox ≠ [] → box.Awake

variable {pipeCapacity : Nat} {box next : TmqMailbox μ}

theorem delivers_init : (tmqMailboxInit : TmqMailbox μ).Delivers := ⟨rfl, fun h => (h rfl).elim⟩

/-- After a write the pipe holds data, also when the write failed. -/
theorem wakeupPipe_notify_pos (hroom : 4 ≤ pipeCapacity) (box : TmqMailbox μ) :
    0 < (box.tmqNotifierNotify pipeCapacity).wakeupPipe := by
  unfold tmqNotifierNotify
  split
  · exact Nat.lt_of_lt_of_le (by decide) (Nat.le_add_left 4 box.wakeupPipe)
  · omega

theorem notify_frame (box : TmqMailbox μ) :
    (box.tmqNotifierNotify pipeCapacity).mailbox = box.mailbox ∧
      (box.tmqNotifierNotify pipeCapacity).pushed = box.pushed ∧
      (box.tmqNotifierNotify pipeCapacity).handled = box.handled ∧
      (box.tmqNotifierNotify pipeCapacity).loop = box.loop ∧
      (box.tmqNotifierNotify pipeCapacity).pushing = box.pushing := by
  unfold tmqNotifierNotify
  split <;> simp

theorem delivers_loopStep (hroom : 4 ≤ pipeCapacity) (h : box.Delivers)
    (hstep : box.loopStep pipeCapacity = some next) : next.Delivers := by
  have horder := h.order
  have hawake := h.awake
  unfold loopStep at hstep
  cases hloop : box.loop with
  | polling =>
      rw [hloop] at hstep
      dsimp only at hstep
      split at hstep
      · cases hstep
      · obtain rfl := Option.some.inj hstep
        refine ⟨?_, fun _ => .inr (.inr (.inr rfl))⟩
        simpa [inHand, hloop] using horder
  | notified =>
      rw [hloop] at hstep
      obtain rfl := Option.some.inj hstep
      refine ⟨?_, fun hmails => (hmails rfl).elim⟩
      simpa [inHand, hloop] using horder
  | handling mails =>
      rw [hloop] at hstep
      cases mails with
      | nil =>
          obtain rfl := Option.some.inj hstep
          refine ⟨?_, ?_⟩
          · simpa [inHand, hloop] using horder
          · simpa [Awake, hloop] using hawake
      | cons mail mails =>
          obtain rfl := Option.some.inj hstep
          refine ⟨?_, ?_⟩
          · simpa [inHand, hloop] using horder
          · simpa [Awake, hloop] using hawake
  | inHandler mails =>
      rw [hloop] at hstep
      obtain rfl := Option.some.inj hstep
      refine ⟨?_, ?_⟩
      · simpa [inHand, hloop] using horder
      · simpa [Awake, hloop] using hawake
  | pushing mails =>
      rw [hloop] at hstep
      obtain rfl := Option.some.inj hstep
      obtain ⟨hmailbox, hpushed, hhandled, -, -⟩ := @notify_frame _ pipeCapacity box
      refine ⟨?_, fun _ => .inl (wakeupPipe_notify_pos hroom box)⟩
      simpa [inHand, hloop, hmailbox, hpushed, hhandled] using horder

theorem delivers_step (hroom : 4 ≤ pipeCapacity) (h : box.Delivers) {label : Label μ}
    (hstep : box.step pipeCapacity label = some next) : next.Delivers := by
  have horder := h.order
  cases label with
  | append thread mail =>
      simp only [step] at hstep
      split at hstep
      · cases hstep
      · obtain rfl := Option.some.inj hstep
        refine ⟨?_, fun _ => .inr (.inl ⟨thread, Finset.mem_insert_self _ _⟩)⟩
        dsimp only [append, inHand] at horder ⊢
        rw [← horder, List.append_assoc, List.append_assoc]
  | notify thread =>
      simp only [step] at hstep
      split at hstep
      · obtain rfl := Option.some.inj hstep
        obtain ⟨hmailbox, hpushed, hhandled, hloop, -⟩ := @notify_frame _ pipeCapacity box
        refine ⟨?_, fun _ => .inl (wakeupPipe_notify_pos hroom box)⟩
        simpa only [inHand, hmailbox, hpushed, hhandled, hloop] using horder
      · cases hstep
  | handlerAppend mail =>
      simp only [step] at hstep
      split at hstep
      · rename_i mails hloop
        obtain rfl := Option.some.inj hstep
        refine ⟨?_, fun _ => .inr (.inr (.inl ⟨mails, rfl⟩))⟩
        simp only [append, inHand, hloop] at horder ⊢
        rw [← horder, List.append_assoc, List.append_assoc]
      · cases hstep
  | loop => exact delivers_loopStep hroom h hstep

/-! ### The work that is left -/

def Label.appends : Label μ → Bool
  | .append _ _ | .handlerAppend _ => true
  | .notify _ | .loop => false

/-- An upper bound on the steps that are left until new mails come. -/
def work (box : TmqMailbox μ) : Nat :=
  4 * box.wakeupPipe + 17 * box.pushing.card + 2 * box.mailbox.length +
    match box.loop with
    | .polling => 0
    | .notified => 2
    | .handling mails => 2 * mails.length + 1
    | .inHandler mails => 2 * mails.length + 2
    | .pushing mails => 2 * mails.length + 19

theorem wakeupPipe_notify_le (box : TmqMailbox μ) :
    (box.tmqNotifierNotify pipeCapacity).wakeupPipe ≤ box.wakeupPipe + 4 := by
  unfold tmqNotifierNotify
  split
  · exact le_rfl
  · exact Nat.le_add_right _ _

theorem work_loopStep (hstep : box.loopStep pipeCapacity = some next) : next.work < box.work := by
  unfold loopStep at hstep
  cases hloop : box.loop with
  | polling =>
      rw [hloop] at hstep
      dsimp only at hstep
      split at hstep
      · cases hstep
      · obtain rfl := Option.some.inj hstep
        simp only [work, hloop]
        omega
  | notified =>
      rw [hloop] at hstep
      obtain rfl := Option.some.inj hstep
      simp only [work, hloop, List.length_nil]
      omega
  | handling mails =>
      rw [hloop] at hstep
      cases mails with
      | nil =>
          obtain rfl := Option.some.inj hstep
          simp only [work, hloop, List.length_nil]
          omega
      | cons mail mails =>
          obtain rfl := Option.some.inj hstep
          simp only [work, hloop, List.length_cons]
          omega
  | inHandler mails =>
      rw [hloop] at hstep
      obtain rfl := Option.some.inj hstep
      simp only [work, hloop]
      omega
  | pushing mails =>
      rw [hloop] at hstep
      obtain rfl := Option.some.inj hstep
      obtain ⟨hmailbox, -, -, -, hpushing⟩ := @notify_frame _ pipeCapacity box
      have hpipe := @wakeupPipe_notify_le _ pipeCapacity box
      simp only [work, hloop, hmailbox, hpushing]
      omega

theorem work_step {label : Label μ} (hlabel : label.appends = false)
    (hstep : box.step pipeCapacity label = some next) : next.work < box.work := by
  cases label with
  | append thread mail => cases hlabel
  | handlerAppend mail => cases hlabel
  | loop => exact work_loopStep hstep
  | notify thread =>
      simp only [step] at hstep
      split at hstep
      · rename_i hmem
        obtain rfl := Option.some.inj hstep
        obtain ⟨hmailbox, -, -, hloop, -⟩ := @notify_frame _ pipeCapacity box
        have hpipe := @wakeupPipe_notify_le _ pipeCapacity box
        have hcard := Finset.card_erase_add_one hmem
        simp only [work, hmailbox, hloop]
        omega
      · cases hstep

theorem length_le_work {labels : List (Label μ)} (hlabels : ∀ label ∈ labels, label.appends = false)
    (hrun : Run.runs (step pipeCapacity) box labels = some next) :
    labels.length + next.work ≤ box.work ∧ next.pushed = box.pushed := by
  induction labels generalizing box with
  | nil =>
      obtain rfl := Option.some.inj hrun
      exact ⟨Nat.le_of_eq (Nat.zero_add _), rfl⟩
  | cons label labels ih =>
      obtain ⟨hlabel, hothers⟩ := List.forall_mem_cons.mp hlabels
      obtain ⟨middle, hstep, hrest⟩ := Option.bind_eq_some_iff.mp hrun
      obtain ⟨hlength, hpushed⟩ := ih hothers hrest
      have hless := work_step hlabel hstep
      refine ⟨by rw [List.length_cons]; omega, hpushed.trans ?_⟩
      cases label with
      | append thread mail => cases hlabel
      | handlerAppend mail => cases hlabel
      | notify thread =>
          simp only [step] at hstep
          split at hstep
          · obtain rfl := Option.some.inj hstep
            exact (@notify_frame _ pipeCapacity box).2.1
          · cases hstep
      | loop =>
          simp only [step, loopStep] at hstep
          split at hstep
          · split at hstep
            · cases hstep
            · obtain rfl := Option.some.inj hstep
              rfl
          all_goals obtain rfl := Option.some.inj hstep
          all_goals first | rfl | exact (@notify_frame _ pipeCapacity box).2.1

/-- When no thread can move, everything has been handed over. -/
theorem handled_of_stuck (h : box.Delivers)
    (hstuck : ∀ label, label.appends = false → box.step pipeCapacity label = none) :
    box.handled = box.pushed := by
  have hloop := hstuck .loop rfl
  have hidle : box.pushing = ∅ := by
    rw [Finset.eq_empty_iff_forall_notMem]
    intro thread hmem
    have hnotify := hstuck (.notify thread) rfl
    rw [step, if_pos hmem] at hnotify
    cases hnotify
  simp only [step, loopStep] at hloop
  split at hloop
  · rename_i hpolling
    split at hloop
    · rename_i hempty
      have hmailbox : box.mailbox = [] := by
        by_contra hmails
        rcases h.awake hmails with hpipe | hpushing | ⟨mails, hpushing⟩ | hnotified
        · omega
        · rw [hidle] at hpushing
          exact Finset.not_nonempty_empty hpushing
        · rw [hpolling] at hpushing
          cases hpushing
        · rw [hpolling] at hnotified
          cases hnotified
      simpa [inHand, hpolling, hmailbox] using h.order
    · cases hloop
  all_goals cases hloop

/-! ### Whole runs -/

/-- What is asked of a mailbox: the mails are handed over in push order, each
once; it is never asleep with mails; and once no more mails come, its threads
stop after finitely many steps with every mail handed over. -/
structure DeliversAll (pipeCapacity : Nat) (box : TmqMailbox μ) : Prop where
  order : box.handled ++ (box.inHand ++ box.mailbox) = box.pushed
  awake : box.mailbox ≠ [] → box.Awake
  finite : ∃ bound, ∀ labels final, (∀ label ∈ labels, label.appends = false) →
    Run.runs (step pipeCapacity) box labels = some final → labels.length ≤ bound
  complete : ∀ labels final, (∀ label ∈ labels, label.appends = false) →
    Run.runs (step pipeCapacity) box labels = some final →
    (∀ label, label.appends = false → final.step pipeCapacity label = none) →
    final.handled = box.pushed

/-- Over every interleaving of the threads that push with the thread of the
loop. An empty pipe has room for a notification. -/
theorem deliversAll_of_runs (hroom : 4 ≤ pipeCapacity) (labels : List (Label μ))
    {box : TmqMailbox μ} (hrun : Run.runs (step pipeCapacity) tmqMailboxInit labels = some box) :
    box.DeliversAll pipeCapacity := by
  have hkeeps : ∀ (state : TmqMailbox μ) label next, state.Delivers →
      state.step pipeCapacity label = some next → next.Delivers :=
    fun state label next h hstep => delivers_step hroom h hstep
  have hdelivers : box.Delivers := Run.runs_maintains hkeeps delivers_init hrun
  refine ⟨hdelivers.order, hdelivers.awake, ⟨box.work, ?_⟩, ?_⟩
  · intro labels final hlabels hrun
    have hlength := (length_le_work hlabels hrun).1
    omega
  · intro labels final hlabels hrun hstuck
    rw [← (length_le_work hlabels hrun).2]
    exact handled_of_stuck (Run.runs_maintains hkeeps hdelivers hrun) hstuck

/-- Two threads push, the second one after the loop has read the pipe and
before it takes the mails. -/
def lateAppend : List (Label Nat) :=
  [.append 0 10, .notify 0, .loop, .append 1 11, .loop, .notify 1, .loop, .handlerAppend 12, .loop]

theorem deliversAll_lateAppend :
    ∃ box, Run.runs (step 65536) tmqMailboxInit lateAppend = some box ∧
      box.handled = [10] ∧ box.inHand = [11] ∧ box.mailbox = [12] ∧ box.DeliversAll 65536 :=
  ⟨_, rfl, rfl, rfl, rfl, deliversAll_of_runs (by decide) lateAppend rfl⟩

end TmqMailbox

end TinyMqtt
