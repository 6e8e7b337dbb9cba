import TinyMqtt.Config.Reading
import TinyMqtt.Lib.Run

/-!
Edits of a configuration (`base/mqtt_config.c`). `tmq_config_mod` and
`tmq_config_del` leave marks in the map, `tmq_config_add` keeps its items in a
list. `tmq_config_sync` then copies the file line by line, each with the change
that the map has for it, and writes the items behind the last line.
-/

namespace TinyMqtt.ConfigFile

open Run
open FiniteMap (set unset)

/-! ### The functions -/

namespace TmqConfig

def tmqConfigAdd (conf : TmqConfig) (key value : Bytes) : Option TmqConfig := do
  let newItems ← conf.newItems
  some { conf with newItems := some (newItems ++ [(tmqStrNew key, tmqStrNew value)]) }

def tmqConfigMod (conf : TmqConfig) (key value : Bytes) : Option TmqConfig := do
  let cfg ← conf.cfg
  match cfg (cstr key) with
  | none => some conf
  | some cfgValue =>
      some { conf with
        cfg := some (set cfg (cstr key) { cfgValue with value := cstr value, modified := true })
        mod := true }

def tmqConfigDel (conf : TmqConfig) (key : Bytes) : Option TmqConfig := do
  let cfg ← conf.cfg
  match cfg (cstr key) with
  | none => some conf
  | some cfgValue =>
      some { conf with
        cfg := some (set cfg (cstr key) { cfgValue with deleted := true })
        mod := true }

end TmqConfig

structure SyncState where
  cfg : ContentMap
  skip : Bool

/-- The body of the loop of `tmq_config_sync`: what it writes. -/
def syncLine (delimeter : Bytes) (st : SyncState) (buf : Bytes) : Bytes × SyncState :=
  let line := cstr buf
  if line = [newline] ∨ hash ∈ line then (line, { st with skip := false })
  else
    match tmqStrSplit line delimeter with
    | [_] => if st.skip then ([], st) else (line, st)
    | [key, _] =>
        let key := tmqStrTrim key
        match st.cfg key with
        | none => (line, { st with skip := false })
        | some cfgValue =>
            if !cfgValue.deleted && !cfgValue.modified then (line, { st with skip := false })
            else if cfgValue.deleted then ([], { cfg := unset st.cfg key, skip := true })
            else (itemLine delimeter (key, cfgValue.value) ++ [newline],
              { cfg := set st.cfg key { cfgValue with modified := false }, skip := true })
    | _ => ([], st)

def syncLoop (delimeter : Bytes) (st : SyncState) : List Bytes → Bytes × ContentMap
  | [] => ([], st.cfg)
  | buf :: bufs =>
      let (written, next) := syncLine delimeter st buf
      let (rest, cfg) := syncLoop delimeter next bufs
      (written ++ rest, cfg)

namespace TmqConfig

def tmqConfigSync (conf : TmqConfig) : Option TmqConfig := do
  let fp ← conf.fp
  let cfg ← conf.cfg
  let newItems ← conf.newItems
  let (content, cfg) :=
    if conf.mod then syncLoop conf.delimeter ⟨cfg, false⟩ (pieces fp) else (fp, cfg)
  let lines := newItems.flatMap fun item => itemLine conf.delimeter item ++ [newline]
  some { conf with
    fp := some (content ++ lines), mod := false, cfg := some cfg, newItems := some [] }

/-- `tmq_config_reload` looks at no error. -/
def tmqConfigReload (conf : TmqConfig) : Option TmqConfig := do
  let fp ← conf.fp
  let _ ← conf.cfg
  let (_, cfg) ← readConfigFile conf.delimeter fp fun _ => none
  some { conf with cfg := some cfg }

end TmqConfig

/-! ### Edits -/

inductive Edit where
  | add (key value : Bytes)
  | mod (key value : Bytes)
  | del (key : Bytes)
  deriving DecidableEq, Repr

def Edit.run (conf : TmqConfig) : Edit → Option TmqConfig
  | .add key value => conf.tmqConfigAdd key value
  | .mod key value => conf.tmqConfigMod key value
  | .del key => conf.tmqConfigDel key

/-- What an edit is to do to the map. -/
def Edit.apply (map : Bytes → Option Bytes) : Edit → Bytes → Option Bytes
  | .add key value => set map key value
  | .mod key value => if (map key).isSome then set map key value else map
  | .del key => unset map key

def contents (cfg : ContentMap) (key : Bytes) : Option Bytes := (cfg key).map ConfigValue.value

def plainMap (map : Bytes → Option Bytes) (key : Bytes) : Option ConfigValue :=
  (map key).map fun value => ⟨value, false, false⟩

/-- Edits with clean keys and values; a key that is added is absent, and a line
that is to be written is short. -/
def EditAllowed (delimeter : Bytes) (map : Bytes → Option Bytes) : Edit → Prop
  | .add key value => map key = none ∧ CleanItem delimeter (key, value)
  | .mod key value => Clean delimeter key ∧ Clean delimeter value ∧
      (map key ≠ none → (itemLine delimeter (key, value)).length < maxLineSize - 1)
  | .del key => Clean delimeter key

instance (delimeter : Bytes) (map : Bytes → Option Bytes) :
    ∀ edit, Decidable (EditAllowed delimeter map edit)
  | .add _ _ => inferInstanceAs (Decidable (_ ∧ _))
  | .mod _ _ => inferInstanceAs (Decidable (_ ∧ _ ∧ _))
  | .del _ => inferInstanceAs (Decidable (Clean _ _))

/-- After the edits, a sync and a reload the map is the old one with the edits
applied. -/
def SurvivesReload (conf : TmqConfig) (map : ContentMap) (edits : List Edit) : Prop :=
  ∃ edited synced reloaded, runs Edit.run conf edits = some edited ∧
    edited.tmqConfigSync = some synced ∧ synced.tmqConfigReload = some reloaded ∧
    reloaded.cfg = some (plainMap (edits.foldl Edit.apply (contents map)))

/-! ### Copying the file -/

def keyOf (delimeter line : Bytes) : Option Bytes :=
  if Carries line then
    match tmqStrSplit line delimeter with
    | [key, _] => some (tmqStrTrim key)
    | _ => none
  else none

/-- How many of the lines begin an entry with the key. -/
def keyLines (delimeter : Bytes) (lines : List Bytes) (key : Bytes) : Nat :=
  lines.countP fun line => keyOf delimeter line = some key

def Marked (cfg : ContentMap) (key : Bytes) : Prop :=
  ∃ cfgValue, cfg key = some cfgValue ∧ (cfgValue.modified = true ∨ cfgValue.deleted = true)

/-- What the copy has for a key, when `n` lines of it have been read: the marks
change its first line, and no other. -/
def copied (cfg : ContentMap) (n : Nat) (key : Bytes) (old : Option ConfigValue) :
    Option ConfigValue :=
  match cfg key with
  | none => old
  | some cfgValue =>
      if n = 1 then
        if cfgValue.deleted then none
        else if cfgValue.modified then some ⟨cfgValue.value, false, false⟩
        else old
      else old

/-- The copy so far, `written` as it would be read, beside the file so far. The
marks in the map are `cfg`; `n` counts the lines that began an entry. -/
structure Copying (cfg : ContentMap) (n : Bytes → Nat) (file : Reading) (st : SyncState)
    (written : Reading) : Prop where
  unread : ∀ key, n key = 0 → st.cfg key = cfg key ∧ file.map key = none
  read : ∀ key, n key ≠ 0 → ¬Marked st.cfg key
  pending : ∀ key value, file.pending = some (key, value) → n key ≠ 0
  map : ∀ key, written.map key = copied cfg (n key) key (file.map key)
  kept : st.skip = false → written.pending = file.pending ∧
    ∀ key value, file.pending = some (key, value) → ¬(n key = 1 ∧ Marked cfg key)
  skipped : st.skip = true → ∃ key value, file.pending = some (key, value) ∧
    n key = 1 ∧ Marked cfg key

/-- The text of a piece of the file, which `tmq_config_sync` takes apart as the
reader does its line. -/
structure SameParts (delimeter text line : Bytes) : Prop where
  carries : Carries line ↔ ¬(text = [newline] ∨ hash ∈ text)
  continued : Carries line → ∀ part, tmqStrSplit line delimeter = [part] →
    ∃ part', tmqStrSplit text delimeter = [part']
  entry : Carries line → ∀ key value, tmqStrSplit line delimeter = [key, value] →
    ∃ value', tmqStrSplit text delimeter = [key, value']

/-- What a line of the file comes to in the copy: nothing, the same, or a new
line. After a line that stays the next one is not skipped. -/
inductive Copied (delimeter text line : Bytes) (before : Reading) :
    Bytes → Bool → Reading → Prop where
  | dropped (skip : Bool) : Copied delimeter text line before [] skip before
  | kept {after : Reading} (h : readEntry delimeter before line = some after) :
      Copied delimeter text line before text false after
  | replaced (item : Bytes × Bytes) (skip : Bool) (h : CleanItem delimeter item) :
      Copied delimeter text line before (itemLine delimeter item ++ [newline]) skip
        (before.put item.1 item.2)

def countKey (n : Bytes → Nat) (entry : Option Bytes) (key : Bytes) : Nat :=
  n key + if entry = some key then 1 else 0

theorem keyOf_eq_none {delimeter line : Bytes} (h : ¬Carries line) : keyOf delimeter line = none :=
  if_neg h

theorem countKey_none (n : Bytes → Nat) : countKey n none = n := by
  funext key
  simp [countKey]

theorem copied_of_not {cfg : ContentMap} {n : Nat} {key : Bytes} (h : ¬(n = 1 ∧ Marked cfg key))
    (old : Option ConfigValue) : copied cfg n key old = old := by
  unfold copied
  cases hkey : cfg key with
  | none => rfl
  | some cfgValue =>
      by_cases hn : n = 1
      · have hmarks : ¬Marked cfg key := fun hmarked => h ⟨hn, hmarked⟩
        have hnone : cfgValue.modified = false ∧ cfgValue.deleted = false := by
          constructor
          · by_contra hmodified
            exact hmarks ⟨cfgValue, hkey, Or.inl (Bool.not_eq_false _ |>.mp hmodified)⟩
          · by_contra hdeleted
            exact hmarks ⟨cfgValue, hkey, Or.inr (Bool.not_eq_false _ |>.mp hdeleted)⟩
        simp [hn, hnone]
      · simp [hn]

/-- A marked entry has the same fate whatever the file had for it. -/
theorem copied_marked {cfg : ContentMap} {key : Bytes} (h : Marked cfg key)
    (old old' : Option ConfigValue) : copied cfg 1 key old = copied cfg 1 key old' := by
  obtain ⟨cfgValue, hkey, hmarks⟩ := h
  simp only [copied, hkey]
  rcases hmarks with hmodified | hdeleted
  · simp [hmodified]
  · simp [hdeleted]

theorem countKey_self (n : Bytes → Nat) (key : Bytes) : countKey n (some key) key = n key + 1 :=
  congrArg (n key + ·) (if_pos rfl)

theorem countKey_of_ne (n : Bytes → Nat) {key key' : Bytes} (h : key ≠ key') :
    countKey n (some key) key' = n key' :=
  congrArg (n key' + ·) (if_neg fun hkey => h (Option.some.inj hkey))

namespace Copying

variable {cfg : ContentMap} {n : Bytes → Nat} {file written : Reading} {st : SyncState}
  {delimeter buf text line : Bytes}

/-- The state after an empty line or a comment. -/
theorem blank (h : Copying cfg n file st written) :
    Copying cfg n { file with pending := none } { st with skip := false }
      { written with pending := none } :=
  { unread := h.unread
    read := h.read
    pending := fun _ _ hpending => absurd hpending (Option.some_ne_none _).symm
    map := h.map
    kept := fun _ => ⟨rfl, fun _ _ hpending => absurd hpending (Option.some_ne_none _).symm⟩
    skipped := fun hskip => absurd hskip Bool.false_ne_true }

/-- The value that is being parsed goes on, and so it does in the copy. -/
theorem continue_kept (h : Copying cfg n file st written) (hskip : st.skip = false)
    {key value : Bytes} (hpending : file.pending = some (key, value)) (more : Bytes) :
    Copying cfg n (file.put key more) st (written.put key more) := by
  obtain ⟨-, hkept⟩ := h.kept hskip
  have hn := h.pending key value hpending
  have hnot := hkept key value hpending
  refine { unread := ?_, read := h.read, pending := ?_, map := ?_, kept := ?_, skipped := ?_ }
  · intro k hk
    have hne : key ≠ k := fun heq => hn (heq ▸ hk)
    exact ⟨(h.unread k hk).1, (FiniteMap.set_of_ne _ hne _).trans (h.unread k hk).2⟩
  · intro k v heq
    obtain ⟨rfl, -⟩ := Prod.mk.inj (Option.some.inj heq)
    exact hn
  · intro k
    by_cases hk : key = k
    · subst hk
      rw [copied_of_not hnot]
      exact (FiniteMap.set_self _ _ _).trans (FiniteMap.set_self _ _ _).symm
    · have hmap := h.map k
      rw [← FiniteMap.set_of_ne written.map hk ⟨more, false, false⟩,
        ← FiniteMap.set_of_ne file.map hk ⟨more, false, false⟩] at hmap
      exact hmap
  · intro _
    refine ⟨rfl, ?_⟩
    intro k v heq
    obtain ⟨rfl, -⟩ := Prod.mk.inj (Option.some.inj heq)
    exact hnot
  · intro htrue
    rw [hskip] at htrue
    cases htrue

/-- The value that is being parsed goes on, but the copy has left it out. -/
theorem continue_skipped (h : Copying cfg n file st written) (hskip : st.skip = true)
    {key value : Bytes} (hpending : file.pending = some (key, value)) (more : Bytes) :
    Copying cfg n (file.put key more) st written := by
  obtain ⟨key', value', hpending', hn, hmarked⟩ := h.skipped hskip
  rw [hpending] at hpending'
  obtain ⟨rfl, rfl⟩ := Prod.mk.inj (Option.some.inj hpending')
  refine { unread := ?_, read := h.read, pending := ?_, map := ?_, kept := ?_, skipped := ?_ }
  · intro k hk
    have hne : key ≠ k := by
      rintro rfl
      omega
    exact ⟨(h.unread k hk).1, (FiniteMap.set_of_ne _ hne _).trans (h.unread k hk).2⟩
  · intro k v heq
    obtain ⟨rfl, -⟩ := Prod.mk.inj (Option.some.inj heq)
    omega
  · intro k
    by_cases hk : key = k
    · subst hk
      rw [h.map key, hn]
      exact copied_marked hmarked _ _
    · have hmap := h.map k
      rw [← FiniteMap.set_of_ne file.map hk ⟨more, false, false⟩] at hmap
      exact hmap
  · intro hfalse
    rw [hskip] at hfalse
    cases hfalse
  · intro _
    exact ⟨key, more, rfl, hn, hmarked⟩

/-- A new entry: `st'` is what the copy knows of the marks after it, `after`
what it has written. -/
theorem entry (h : Copying cfg n file st written) {key value : Bytes} {st' : SyncState}
    {after : Reading} (hsame : ∀ k, key ≠ k → st'.cfg k = st.cfg k)
    (hread : ¬Marked st'.cfg key) (hothers : ∀ k, key ≠ k → after.map k = written.map k)
    (hkey : after.map key = copied cfg (n key + 1) key (some ⟨value, false, false⟩))
    (hkept : st'.skip = false → after.pending = some (key, value) ∧
      ¬(n key + 1 = 1 ∧ Marked cfg key))
    (hskipped : st'.skip = true → n key = 0 ∧ Marked cfg key) :
    Copying cfg (countKey n (some key)) (file.put key value) st' after := by
  refine { unread := ?_, read := ?_, pending := ?_, map := ?_, kept := ?_, skipped := ?_ }
  · intro k hk
    have hne : key ≠ k := by
      rintro rfl
      rw [countKey_self] at hk
      omega
    rw [countKey_of_ne n hne] at hk
    exact ⟨(hsame k hne).trans (h.unread k hk).1,
      (FiniteMap.set_of_ne _ hne _).trans (h.unread k hk).2⟩
  · intro k hk
    by_cases hne : key = k
    · exact hne ▸ hread
    · rw [countKey_of_ne n hne] at hk
      rintro ⟨cfgValue, hvalue, hmarks⟩
      rw [hsame k hne] at hvalue
      exact h.read k hk ⟨cfgValue, hvalue, hmarks⟩
  · intro k v heq
    obtain ⟨rfl, -⟩ := Prod.mk.inj (Option.some.inj heq)
    rw [countKey_self]
    omega
  · intro k
    by_cases hne : key = k
    · subst hne
      rw [countKey_self, hkey]
      exact congrArg _ (FiniteMap.set_self _ _ _).symm
    · rw [countKey_of_ne n hne, hothers k hne, h.map k]
      exact congrArg _ (FiniteMap.set_of_ne _ hne _).symm
  · intro hskip
    obtain ⟨hpending, hnot⟩ := hkept hskip
    refine ⟨hpending, ?_⟩
    intro k v heq
    obtain ⟨rfl, -⟩ := Prod.mk.inj (Option.some.inj heq)
    rwa [countKey_self]
  · intro hskip
    obtain ⟨hn, hmarked⟩ := hskipped hskip
    refine ⟨key, value, rfl, ?_, hmarked⟩
    rw [countKey_self, hn]

/-- The marks of a key that is read for the first time. -/
theorem unread_of_marked (h : Copying cfg n file st written) {key : Bytes}
    (hmarked : Marked st.cfg key) : n key = 0 ∧ st.cfg key = cfg key := by
  have hn : n key = 0 := by
    by_contra hne
    exact h.read key hne hmarked
  exact ⟨hn, (h.unread key hn).1⟩

/-- An entry without a mark stays. -/
theorem entry_kept (h : Copying cfg n file st written) {key : Bytes} (hplain : ¬Marked st.cfg key)
    (value : Bytes) :
    Copying cfg (countKey n (some key)) (file.put key value) { st with skip := false }
      (written.put key value) := by
  have hnot : ¬(n key + 1 = 1 ∧ Marked cfg key) := by
    rintro ⟨hn, hmarked⟩
    have hsame := (h.unread key (Nat.succ.inj hn)).1
    rw [Marked, ← hsame] at hmarked
    exact hplain hmarked
  refine h.entry (fun _ _ => rfl) hplain ?_ ?_ (fun _ => ⟨rfl, hnot⟩) ?_
  · intro k hne
    exact FiniteMap.set_of_ne _ hne _
  · rw [copied_of_not hnot]
    exact FiniteMap.set_self _ _ _
  · intro hfalse
    cases hfalse

/-- A deleted entry goes, with its mark. -/
theorem entry_dropped (h : Copying cfg n file st written) {key : Bytes} {cfgValue : ConfigValue}
    (hvalue : st.cfg key = some cfgValue) (hdeleted : cfgValue.deleted = true) (value : Bytes) :
    Copying cfg (countKey n (some key)) (file.put key value)
      { cfg := unset st.cfg key, skip := true } written := by
  obtain ⟨hn, hsame⟩ := h.unread_of_marked ⟨cfgValue, hvalue, Or.inr hdeleted⟩
  have hold : cfg key = some cfgValue := hsame.symm.trans hvalue
  refine h.entry ?_ ?_ (fun _ _ => rfl) ?_ ?_ (fun _ => ⟨hn, cfgValue, hold, Or.inr hdeleted⟩)
  · intro k hne
    exact FiniteMap.unset_of_ne _ hne
  · rintro ⟨plain, hsome, -⟩
    change unset st.cfg key key = some plain at hsome
    rw [FiniteMap.unset_self] at hsome
    cases hsome
  · rw [h.map key, hn, (h.unread key hn).2]
    simp [copied, hold, hdeleted]
  · intro hfalse
    cases hfalse

/-- A modified entry is written anew, and its mark is taken away. -/
theorem entry_replaced (h : Copying cfg n file st written) {key : Bytes} {cfgValue : ConfigValue}
    (hvalue : st.cfg key = some cfgValue) (hmodified : cfgValue.modified = true)
    (hdeleted : cfgValue.deleted = false) (value : Bytes) :
    Copying cfg (countKey n (some key)) (file.put key value)
      { cfg := set st.cfg key { cfgValue with modified := false }, skip := true }
      (written.put key cfgValue.value) := by
  obtain ⟨hn, hsame⟩ := h.unread_of_marked ⟨cfgValue, hvalue, Or.inl hmodified⟩
  have hold : cfg key = some cfgValue := hsame.symm.trans hvalue
  refine h.entry ?_ ?_ ?_ ?_ ?_ (fun _ => ⟨hn, cfgValue, hold, Or.inl hmodified⟩)
  · intro k hne
    exact FiniteMap.set_of_ne _ hne _
  · rintro ⟨plain, hsome, hmarks⟩
    change FiniteMap.set st.cfg key { cfgValue with modified := false } key = some plain at hsome
    rw [FiniteMap.set_self] at hsome
    obtain rfl := Option.some.inj hsome
    simp [hdeleted] at hmarks
  · intro k hne
    exact FiniteMap.set_of_ne _ hne _
  · rw [hn]
    simp [copied, hold, hdeleted, hmodified, Reading.put]
  · intro hfalse
    cases hfalse

/-- A line that begins an entry. -/
theorem step_entry (h : Copying cfg n file st written)
    (hcfg : ∀ key cfgValue, cfg key = some cfgValue → cfgValue.modified = true →
      cfgValue.deleted = false → CleanItem delimeter (key, cfgValue.value))
    (hbuf : cstr buf = text) (hparts : SameParts delimeter text line) (hcarries : Carries line)
    {key value : Bytes} (hsplit : tmqStrSplit line delimeter = [key, value]) :
    ∃ after, Copied delimeter text line written (syncLine delimeter st buf).1
        (syncLine delimeter st buf).2.skip after ∧
      Copying cfg (countKey n (some (tmqStrTrim key)))
        (file.put (tmqStrTrim key) (tmqStrTrim value)) (syncLine delimeter st buf).2 after := by
  obtain ⟨value', hsplit'⟩ := hparts.entry hcarries key value hsplit
  have hcontent := hparts.carries.mp hcarries
  have hread : readEntry delimeter written line
      = some (written.put (tmqStrTrim key) (tmqStrTrim value)) := by
    simp only [readEntry, if_pos hcarries, hsplit]
  cases hvalue : st.cfg (tmqStrTrim key) with
  | none =>
      have hsync : syncLine delimeter st buf = (text, { st with skip := false }) := by
        simp only [syncLine, hbuf, if_neg hcontent, hsplit', hvalue]
      rw [hsync]
      refine ⟨_, .kept hread, h.entry_kept ?_ _⟩
      rintro ⟨_, hsome, -⟩
      rw [hvalue] at hsome
      cases hsome
  | some cfgValue =>
      cases hdeleted : cfgValue.deleted with
      | true =>
          have hsync : syncLine delimeter st buf =
              ([], { cfg := unset st.cfg (tmqStrTrim key), skip := true }) := by
            simp [syncLine, hbuf, hcontent, hsplit', hvalue, hdeleted]
          rw [hsync]
          exact ⟨written, .dropped true, h.entry_dropped hvalue hdeleted _⟩
      | false =>
          cases hmodified : cfgValue.modified with
          | true =>
              obtain ⟨-, hsame⟩ := h.unread_of_marked ⟨cfgValue, hvalue, Or.inl hmodified⟩
              have hitem := hcfg _ cfgValue (hsame.symm.trans hvalue) hmodified hdeleted
              have hsync : syncLine delimeter st buf =
                  (itemLine delimeter (tmqStrTrim key, cfgValue.value) ++ [newline],
                    { cfg := set st.cfg (tmqStrTrim key) { cfgValue with modified := false },
                      skip := true }) := by
                simp [syncLine, hbuf, hcontent, hsplit', hvalue, hdeleted, hmodified]
              rw [hsync]
              exact ⟨_, .replaced (tmqStrTrim key, cfgValue.value) true hitem,
                h.entry_replaced hvalue hmodified hdeleted _⟩
          | false =>
              have hsync : syncLine delimeter st buf = (text, { st with skip := false }) := by
                simp [syncLine, hbuf, hcontent, hsplit', hvalue, hdeleted, hmodified]
              rw [hsync]
              refine ⟨_, .kept hread, h.entry_kept ?_ _⟩
              rintro ⟨other, hsome, hmarks⟩
              rw [hvalue] at hsome
              obtain rfl := Option.some.inj hsome
              simp [hdeleted, hmodified] at hmarks

/-- The copy keeps up with the file, line by line. -/
theorem step (h : Copying cfg n file st written)
    (hcfg : ∀ key cfgValue, cfg key = some cfgValue → cfgValue.modified = true →
      cfgValue.deleted = false → CleanItem delimeter (key, cfgValue.value))
    (hbuf : cstr buf = text) (hparts : SameParts delimeter text line) {next : Reading}
    (hline : readEntry delimeter file line = some next) :
    ∃ after, Copied delimeter text line written (syncLine delimeter st buf).1
        (syncLine delimeter st buf).2.skip after ∧
      Copying cfg (countKey n (keyOf delimeter line)) next (syncLine delimeter st buf).2 after := by
  rcases readEntry_cases hline with ⟨hcarries, rfl⟩ |
    ⟨part, key, value, hcarries, hsplit, hpending, rfl⟩ | ⟨key, value, hcarries, hsplit, rfl⟩
  · have hcontent : text = [newline] ∨ hash ∈ text := not_not.mp (mt hparts.carries.mpr hcarries)
    have hsync : syncLine delimeter st buf = (text, { st with skip := false }) := by
      simp only [syncLine, hbuf, if_pos hcontent]
    rw [hsync, keyOf_eq_none hcarries, countKey_none]
    exact ⟨_, .kept (if_neg hcarries), h.blank⟩
  · obtain ⟨part', hsplit'⟩ := hparts.continued hcarries part hsplit
    have hcontent := hparts.carries.mp hcarries
    have hkey : keyOf delimeter line = none := by
      simp only [keyOf, if_pos hcarries, hsplit]
    rw [hkey, countKey_none]
    cases hskip : st.skip with
    | false =>
        have hsync : syncLine delimeter st buf = (text, st) := by
          simp [syncLine, hbuf, hcontent, hsplit', hskip]
        have hwritten : written.pending = some (key, value) := (h.kept hskip).1.trans hpending
        rw [hsync, hskip]
        refine ⟨_, .kept ?_, h.continue_kept hskip hpending (tmqStrTrim (value ++ part))⟩
        rw [readEntry, if_pos hcarries, hsplit, hwritten]
    | true =>
        have hsync : syncLine delimeter st buf = ([], st) := by
          simp [syncLine, hbuf, hcontent, hsplit', hskip]
        rw [hsync, hskip]
        exact ⟨written, .dropped true, h.continue_skipped hskip hpending _⟩
  · have hkey : keyOf delimeter line = some (tmqStrTrim key) := by
      simp only [keyOf, if_pos hcarries, hsplit]
    rw [hkey]
    exact h.step_entry hcfg hbuf hparts hcarries hsplit

theorem start (cfg : ContentMap) :
    Copying cfg (fun _ => 0) .empty { cfg := cfg, skip := false } .empty :=
  { unread := fun _ _ => ⟨rfl, rfl⟩
    read := fun _ hn => absurd rfl hn
    pending := fun _ _ hpending => absurd hpending (Option.some_ne_none _).symm
    map := fun _ => (copied_of_not (fun h => Nat.zero_ne_one h.1) _).symm
    kept := fun _ => ⟨rfl, fun _ _ hpending => absurd hpending (Option.some_ne_none _).symm⟩
    skipped := fun hskip => absurd hskip Bool.false_ne_true }

end Copying

/-! ### The whole file -/

def nextKey (delimeter : Bytes) (key : Option Bytes) (line : Bytes) : Option Bytes :=
  if Carries line then (keyOf delimeter line).or key else none

def lastKey (delimeter : Bytes) (lines : List Bytes) : Option Bytes :=
  lines.foldl (nextKey delimeter) none

/-- The last of the lines belongs to the first entry of a key with an edit, which
the copy leaves out. -/
def LeftOut (delimeter : Bytes) (lines : List Bytes) (edited : Bytes → Prop) : Prop :=
  ∃ key, lastKey delimeter lines = some key ∧ keyLines delimeter lines key = 1 ∧ edited key

/-- A short line without a zero byte. -/
structure PlainLine (line : Bytes) : Prop extends ShortLine line where
  plain : 0 ∉ line

/-- A line, with a newline behind it, that the copy takes as the reader does and
does not join to the next: no delimiter stands before its newline, and a zero
byte, which the copy stops at, is in a line that is left out. -/
structure SafeLine (delimeter : Bytes) (edited : Bytes → Prop) (before : List Bytes)
    (line : Bytes) : Prop extends ShortLine line where
  plain : 0 ∈ line → LeftOut delimeter ((before ++ [line]).map cstr) edited
  last : 0 ∉ line → Carries line → line.getLast?.any (fun c => decide (c ∈ delimeter)) = false

theorem readEntry_pending {delimeter line : Bytes} {r next : Reading}
    (h : readEntry delimeter r line = some next) :
    next.pending.map Prod.fst = nextKey delimeter (r.pending.map Prod.fst) line := by
  rcases readEntry_cases h with ⟨hcarries, rfl⟩ |
    ⟨part, key, value, hcarries, hsplit, hpending, rfl⟩ | ⟨key, value, hcarries, hsplit, rfl⟩
  · simp [nextKey, hcarries]
  · simp [nextKey, keyOf, hcarries, hsplit, hpending, Reading.put]
  · simp [nextKey, keyOf, hcarries, hsplit, Reading.put]

theorem foldlM_pending {delimeter : Bytes} {lines : List Bytes} {r next : Reading}
    (h : lines.foldlM (readEntry delimeter) r = some next) :
    next.pending.map Prod.fst = lines.foldl (nextKey delimeter) (r.pending.map Prod.fst) := by
  induction lines generalizing r with
  | nil =>
      obtain rfl := Option.some.inj h
      rfl
  | cons line lines ih =>
      obtain ⟨middle, hfirst, hrest⟩ := Option.bind_eq_some_iff.mp h
      rw [List.foldl_cons, ← readEntry_pending hfirst]
      exact ih hrest

/-- The copy skips a line that is left out. -/
theorem Copying.skip_of_leftOut {cfg : ContentMap} {delimeter : Bytes} {lines : List Bytes}
    {file written : Reading} {st : SyncState}
    (h : Copying cfg (keyLines delimeter lines) file st written)
    (hread : lines.foldlM (readEntry delimeter) .empty = some file)
    (hout : LeftOut delimeter lines (Marked cfg)) : st.skip = true := by
  obtain ⟨key, hkey, hone, hmarked⟩ := hout
  have hpending := foldlM_pending hread
  change _ = List.foldl _ none _ at hpending
  rw [lastKey] at hkey
  rw [hkey, Option.map_eq_some_iff] at hpending
  obtain ⟨⟨key', value⟩, hpending, rfl⟩ := hpending
  by_contra hskip
  obtain ⟨-, hnot⟩ := h.kept (Bool.not_eq_true _ |>.mp hskip)
  exact hnot _ _ hpending ⟨hone, hmarked⟩

theorem keyLines_concat (delimeter : Bytes) (lines : List Bytes) (line : Bytes) :
    keyLines delimeter (lines ++ [line])
      = countKey (keyLines delimeter lines) (keyOf delimeter line) := by
  funext key
  simp only [countKey, keyLines, List.countP_append, List.countP_cons, List.countP_nil,
    Nat.zero_add, decide_eq_true_eq]

theorem ShortLine.plainLine_cstr {line : Bytes} (h : ShortLine line) : PlainLine (cstr line) :=
  { single := newline_not_mem_cstr h.single
    short := ((List.takeWhile_prefix _).length_le).trans_lt h.short
    plain := zero_not_mem_cstr line }

/-- A text without a newline is the same for both. -/
theorem sameParts_self {delimeter line : Bytes} (hne : line ≠ []) (hsingle : newline ∉ line) :
    SameParts delimeter line line := by
  have hother : line ≠ [newline] := by
    rintro rfl
    exact hsingle List.mem_cons_self
  exact { carries := by simp [Carries, hne, hother],
          continued := fun _ part hsplit => ⟨part, hsplit⟩,
          entry := fun _ _ value hsplit => ⟨value, hsplit⟩ }

theorem sameParts_newline {delimeter line : Bytes} (hdelimeter : ProperDelimeter delimeter)
    (hlast : Carries line → line.getLast?.any (fun c => decide (c ∈ delimeter)) = false) :
    SameParts delimeter (line ++ [newline]) line := by
  have hnewline : newline ∉ delimeter := fun hmem => (hdelimeter.plain newline hmem).2.1 rfl
  have hsplits : Carries line → ∃ parts last, tmqStrSplit line delimeter = parts ++ [last] ∧
      tmqStrSplit (line ++ [newline]) delimeter = parts ++ [last ++ [newline]] :=
    fun hcarries => strtok_concat_newline hnewline (hlast hcarries) [] hcarries.1
  refine { carries := ?_, continued := ?_, entry := ?_ }
  · simp [Carries, newline, hash]
  · intro hcarries part hsplit
    obtain ⟨parts, last, hline, htext⟩ := hsplits hcarries
    rw [hsplit] at hline
    cases parts with
    | nil => exact ⟨last ++ [newline], htext⟩
    | cons first parts => simp at hline
  · intro hcarries key value hsplit
    obtain ⟨parts, last, hline, htext⟩ := hsplits hcarries
    rw [hsplit] at hline
    rcases parts with _ | ⟨first, _ | ⟨second, parts⟩⟩
    · simp at hline
    · obtain ⟨rfl, -⟩ := List.cons.inj hline
      exact ⟨last ++ [newline], htext⟩
    · simp at hline

theorem SafeLine.sameParts {delimeter line : Bytes} {edited : Bytes → Prop} {before : List Bytes}
    (hdelimeter : ProperDelimeter delimeter) (h : SafeLine delimeter edited before line)
    (hhead : line.head? ≠ some 0) :
    SameParts delimeter (cstr (line ++ [newline])) (cstr line) := by
  rw [cstr_concat_newline]
  by_cases hzero : 0 ∈ line
  · have hne : cstr line ≠ [] := by
      rw [ne_eq, cstr_eq_nil_iff, not_or]
      exact ⟨List.ne_nil_of_mem hzero, hhead⟩
    rw [if_pos hzero]
    exact sameParts_self hne (newline_not_mem_cstr h.single)
  · rw [if_neg hzero, (cstr_eq_self_iff line).mpr hzero]
    exact sameParts_newline hdelimeter (h.last hzero)

/-- What a line comes to, as lines: one that stays has its newline. -/
theorem Copied.exists_lines {delimeter text line written : Bytes} {before after : Reading}
    {skip : Bool} (hdelimeter : ProperDelimeter delimeter) (hline : PlainLine line)
    (htext : skip = false → text = line ++ [newline])
    (h : Copied delimeter text line before written skip after) :
    ∃ lines, written = fileOf lines [] ∧ (∀ l ∈ lines, PlainLine l) ∧
      lines.foldlM (readEntry delimeter) before = some after := by
  cases h with
  | dropped => exact ⟨[], rfl, List.forall_mem_nil _, rfl⟩
  | kept h =>
      refine ⟨[line], by simp [fileOf, htext rfl], List.forall_mem_singleton.mpr hline, ?_⟩
      rw [List.foldlM_cons, h]
      rfl
  | replaced item _ hitem =>
      refine ⟨[itemLine delimeter item], by simp [fileOf], List.forall_mem_singleton.mpr
        ⟨shortLine_itemLine hdelimeter hitem, zero_not_mem_itemLine hdelimeter hitem⟩, ?_⟩
      rw [List.foldlM_cons, readEntry_itemLine hdelimeter hitem]
      rfl

theorem syncLoop_cons (delimeter : Bytes) (st : SyncState) (buf : Bytes) (bufs : List Bytes) :
    (syncLoop delimeter st (buf :: bufs)).1 =
      (syncLine delimeter st buf).1
        ++ (syncLoop delimeter (syncLine delimeter st buf).2 bufs).1 := rfl

theorem fileOf_append (lines more : List Bytes) (last : Bytes) :
    fileOf (lines ++ more) last = fileOf lines (fileOf more last) := by
  simp [fileOf]

/-- The copy of lines that have their newline, whatever stands behind them. -/
theorem syncLoop_lines {cfg : ContentMap} {delimeter : Bytes}
    (hdelimeter : ProperDelimeter delimeter)
    (hcfg : ∀ key cfgValue, cfg key = some cfgValue → cfgValue.modified = true →
      cfgValue.deleted = false → CleanItem delimeter (key, cfgValue.value))
    {lines : List Bytes}
    (hlines : ∀ before line, before ++ [line] <+: lines →
      SafeLine delimeter (Marked cfg) before line)
    (hheads : ∀ line ∈ lines, line.head? ≠ some 0) {file : Reading}
    (hread : (lines.map cstr).foldlM (readEntry delimeter) .empty = some file) :
    ∃ out after st, Copying cfg (keyLines delimeter (lines.map cstr)) file st after ∧
      (∀ line ∈ out, PlainLine line) ∧ out.foldlM (readEntry delimeter) .empty = some after ∧
      ∀ bufs, (syncLoop delimeter ⟨cfg, false⟩
        (lines.map (fun line => line ++ [newline]) ++ bufs)).1
          = fileOf out (syncLoop delimeter st bufs).1 := by
  induction lines using List.reverseRecOn generalizing file with
  | nil =>
      obtain rfl := Option.some.inj hread
      exact ⟨[], .empty, ⟨cfg, false⟩, Copying.start cfg, List.forall_mem_nil _, rfl, fun _ => rfl⟩
  | append_singleton lines line ih =>
      have hwhole := hread
      have hsafe := hlines lines line (List.prefix_refl _)
      rw [List.forall_mem_append, List.forall_mem_singleton] at hheads
      rw [List.map_append, List.map_singleton, List.foldlM_append] at hread
      obtain ⟨middle, hmiddle, hend⟩ := Option.bind_eq_some_iff.mp hread
      rw [List.foldlM_cons] at hend
      obtain ⟨file', hline, hfile⟩ := Option.bind_eq_some_iff.mp hend
      obtain rfl := Option.some.inj hfile
      obtain ⟨out, after, st, hcopying, hout, houtRead, hloop⟩ :=
        ih (fun before line hbefore => hlines before line (hbefore.trans (List.prefix_append _ _)))
          hheads.1 hmiddle
      obtain ⟨last, hcopied, hnext⟩ :=
        hcopying.step hcfg rfl (hsafe.sameParts hdelimeter hheads.2) hline
      have hcount : Copying cfg (keyLines delimeter ((lines ++ [line]).map cstr)) file'
          (syncLine delimeter st (line ++ [newline])).2 last := by
        rw [List.map_append, List.map_singleton, keyLines_concat]
        exact hnext
      -- a line with a zero byte does not stay
      have htext : (syncLine delimeter st (line ++ [newline])).2.skip = false →
          cstr (line ++ [newline]) = cstr line ++ [newline] := by
        intro hskip
        by_cases hzero : 0 ∈ line
        · rw [hcount.skip_of_leftOut hwhole (hsafe.plain hzero)] at hskip
          cases hskip
        · rw [cstr_concat_newline, if_neg hzero, (cstr_eq_self_iff line).mpr hzero]
      obtain ⟨more, hwritten, hmore, hmoreRead⟩ :=
        hcopied.exists_lines hdelimeter hsafe.toShortLine.plainLine_cstr htext
      refine ⟨out ++ more, last, _, hcount, List.forall_mem_append.mpr ⟨hout, hmore⟩, ?_, ?_⟩
      · rw [List.foldlM_append, houtRead]
        exact hmoreRead
      · intro bufs
        rw [List.map_append, List.map_singleton, List.append_assoc, hloop, List.singleton_append,
          syncLoop_cons, hwritten, fileOf_append]
        simp [fileOf]

/-- What the last line comes to, as the end of a file. -/
theorem Copied.exists_file {delimeter last written : Bytes} {before after : Reading} {skip : Bool}
    (hdelimeter : ProperDelimeter delimeter) (hlast : PlainLine last)
    (h : Copied delimeter last last before written skip after) :
    ∃ lines last', written = fileOf lines last' ∧ (∀ l ∈ lines, PlainLine l) ∧ PlainLine last' ∧
      (skip = true → last' = []) ∧
      ∃ r, (lines ++ [last']).foldlM (readEntry delimeter) before = some r ∧ r.map = after.map := by
  have hempty : PlainLine [] :=
    { single := List.not_mem_nil, short := by decide, plain := List.not_mem_nil }
  have hend : ∀ r, [[]].foldlM (readEntry delimeter) r = some { r with pending := none } := by
    intro r
    rw [List.foldlM_cons, readEntry_nil]
    rfl
  cases h with
  | dropped =>
      exact ⟨[], [], rfl, List.forall_mem_nil _, hempty, fun _ => rfl, _, hend before, rfl⟩
  | kept h =>
      refine ⟨[], last, rfl, List.forall_mem_nil _, hlast, fun hskip => ?_, after, ?_, rfl⟩
      · cases hskip
      · rw [List.nil_append, List.foldlM_cons, h]
        rfl
  | replaced item _ hitem =>
      refine ⟨[itemLine delimeter item], [], by simp [fileOf], List.forall_mem_singleton.mpr
        ⟨shortLine_itemLine hdelimeter hitem, zero_not_mem_itemLine hdelimeter hitem⟩, hempty,
        fun _ => rfl, { before.put item.1 item.2 with pending := none }, ?_, rfl⟩
      rw [List.foldlM_append, List.foldlM_cons, readEntry_itemLine hdelimeter hitem]
      exact hend _

/-- The copy of a file, as a file: what it is read as, and that it ends with a
newline where the last line of the original has one or is left out. -/
theorem syncLoop_file {cfg : ContentMap} {delimeter : Bytes}
    (hdelimeter : ProperDelimeter delimeter)
    (hcfg : ∀ key cfgValue, cfg key = some cfgValue → cfgValue.modified = true →
      cfgValue.deleted = false → CleanItem delimeter (key, cfgValue.value))
    {lines : List Bytes} {last : Bytes}
    (hlines : ∀ before line, before ++ [line] <+: lines →
      SafeLine delimeter (Marked cfg) before line)
    (hlast : ShortLine last) (hheads : ∀ line ∈ lines ++ [last], line.head? ≠ some 0)
    {file : Reading}
    (hread : ((lines ++ [last]).map cstr).foldlM (readEntry delimeter) .empty = some file) :
    ∃ out last', (syncLoop delimeter ⟨cfg, false⟩ (pieces (fileOf lines last))).1
        = fileOf out last' ∧
      (∀ line ∈ out, PlainLine line) ∧ PlainLine last' ∧
      (∃ r, (out ++ [last']).foldlM (readEntry delimeter) .empty = some r ∧ ∀ key,
        r.map key = copied cfg (keyLines delimeter ((lines ++ [last]).map cstr) key) key
          (file.map key)) ∧
      ((last = [] ∨ LeftOut delimeter ((lines ++ [last]).map cstr) (Marked cfg)) →
        last' = []) := by
  have hwhole := hread
  have hshort : ∀ line ∈ lines, ShortLine line := by
    intro line hline
    obtain ⟨before, after, rfl⟩ := List.append_of_mem hline
    exact (hlines before line ⟨after, by simp⟩).toShortLine
  rw [List.forall_mem_append, List.forall_mem_singleton] at hheads
  rw [List.map_append, List.map_singleton, List.foldlM_append] at hread
  obtain ⟨middle, hmiddle, hend⟩ := Option.bind_eq_some_iff.mp hread
  obtain ⟨out, after, st, hcopying, hout, houtRead, hloop⟩ :=
    syncLoop_lines hdelimeter hcfg hlines hheads.1 hmiddle
  rw [pieces_fileOf hshort hlast, hloop]
  by_cases hempty : last = []
  · subst hempty
    have hnil : cstr [] = [] := rfl
    rw [hnil, List.foldlM_cons, readEntry_nil] at hend
    obtain rfl := Option.some.inj hend
    refine ⟨out, [], rfl, hout, hlast.plainLine_cstr, ⟨{ after with pending := none }, ?_, ?_⟩,
      fun _ => rfl⟩
    · rw [List.foldlM_append, houtRead]
      exact congrArg (· >>= pure) (readEntry_nil delimeter after)
    · intro key
      rw [List.map_append, List.map_singleton, hnil, keyLines_concat,
        keyOf_eq_none fun hcarries => hcarries.1 rfl, countKey_none]
      exact hcopying.map key
  · rw [if_neg hempty]
    rw [List.foldlM_cons] at hend
    obtain ⟨file', hlastRead, hfile⟩ := Option.bind_eq_some_iff.mp hend
    obtain rfl := Option.some.inj hfile
    have hne : cstr last ≠ [] := by
      rw [ne_eq, cstr_eq_nil_iff, not_or]
      exact ⟨hempty, hheads.2⟩
    obtain ⟨after', hcopied, hnext⟩ := hcopying.step hcfg rfl
      (sameParts_self hne (newline_not_mem_cstr hlast.single)) hlastRead
    obtain ⟨more, last', hwritten, hmore, hlast', hskipped, r, hrRead, hrMap⟩ :=
      hcopied.exists_file hdelimeter hlast.plainLine_cstr
    rw [← keyLines_concat, ← List.map_singleton, ← List.map_append] at hnext
    refine ⟨out ++ more, last', ?_, List.forall_mem_append.mpr ⟨hout, hmore⟩, hlast',
      ⟨r, ?_, ?_⟩, ?_⟩
    · rw [syncLoop_cons, hwritten]
      simp [fileOf, syncLoop]
    · rw [List.append_assoc, List.foldlM_append, houtRead]
      exact hrRead
    · intro key
      rw [hrMap, hnext.map key]
    · rintro (hnil | hleft)
      · exact absurd hnil hempty
      · exact hskipped (hnext.skip_of_leftOut hwhole hleft)

end TinyMqtt.ConfigFile
