import TinyMqtt.Config.ConfigSync

/-!
Edits, a sync and a reload. The marks in the map reach the first line of their
key alone, and `tmq_config_mod` and `tmq_config_del` do not look at the items
that wait in the list.
-/

namespace TinyMqtt.ConfigFile

open Run
open FiniteMap (set unset)

/-- The items that the edits put into the list. -/
def newItems (edits : List Edit) : List (Bytes × Bytes) :=
  edits.filterMap fun edit =>
    match edit with
    | .add key value => some (key, value)
    | _ => none

def added (edits : List Edit) : Bytes → Option Bytes :=
  (newItems edits).foldl (fun map item => set map item.1 item.2) fun _ => none

def Edit.Touches (key : Bytes) : Edit → Prop
  | .add _ _ => False
  | .mod key' _ => key' = key
  | .del key' => key' = key

/-- A key of the file that an edit changes or deletes. -/
def Touched (map : ContentMap) (edits : List Edit) (key : Bytes) : Prop :=
  map key ≠ none ∧ ∃ edit ∈ edits, edit.Touches key

/-- A file that is copied line by line as it is read. A line with a zero byte
loses its newline, unless the edits leave it out; a line that carries something
has no delimiter before its newline. -/
structure RewriteSafe (delimeter content : Bytes) (map : ContentMap) (edits : List Edit) :
    Prop where
  plain : ∀ before line, before ++ [line] <+: (content.splitOn newline).dropLast → 0 ∈ line →
    LeftOut delimeter ((before ++ [line]).map cstr) (Touched map edits)
  last : ∀ line ∈ (content.splitOn newline).dropLast, 0 ∉ line → Carries line →
    line.getLast?.any (fun c => decide (c ∈ delimeter)) = false

def EndsLine (content : Bytes) : Prop := content = [] ∨ content.getLast? = some newline

/-- What the two passes over the file rely on: where lines are copied, the
copying is safe; where items are written, the last line has its newline, or it
is left out. -/
structure SyncSafe (delimeter content : Bytes) (map : ContentMap) (edits : List Edit) : Prop where
  rewrite : (∃ key, Touched map edits key) → RewriteSafe delimeter content map edits
  append : newItems edits ≠ [] → EndsLine content ∨
    LeftOut delimeter (fileLines content) (Touched map edits)

/-- For every key, the edits end with what was last added for it; a key that was
not added ends with its value in the file, or has one line there. -/
def EditsReachFile (delimeter content : Bytes) (map : ContentMap) (edits : List Edit) : Prop :=
  ∀ key, match added edits key with
    | some value => edits.foldl Edit.apply (contents map) key = some value
    | none => edits.foldl Edit.apply (contents map) key = contents map key ∨
        keyLines delimeter (fileLines content) key = 1

/-! ### The edits -/

structure Edited (delimeter : Bytes) (orig : ContentMap) (edits : List Edit) (cfg : ContentMap)
    (map : Bytes → Option Bytes) : Prop where
  known : ∀ key, cfg key = none ↔ orig key = none
  unmodified : ∀ key cfgValue, cfg key = some cfgValue → cfgValue.modified = false →
    contents orig key = some cfgValue.value
  clean : ∀ key cfgValue, cfg key = some cfgValue → cfgValue.modified = true →
    cfgValue.deleted = false → CleanItem delimeter (key, cfgValue.value)
  marked : ∀ key, Marked cfg key ↔ Touched orig edits key
  readded : ∀ key cfgValue, added edits key ≠ none → cfg key = some cfgValue →
    cfgValue.deleted = true
  map : ∀ key, added edits key = none →
    map key = (cfg key).bind fun cfgValue => if cfgValue.deleted then none else some cfgValue.value
  items : ∀ item ∈ newItems edits, CleanItem delimeter item

theorem newItems_concat (edits : List Edit) (edit : Edit) :
    newItems (edits ++ [edit]) = newItems edits ++ newItems [edit] :=
  List.filterMap_append

theorem added_add (edits : List Edit) (key value : Bytes) :
    added (edits ++ [.add key value]) = set (added edits) key value := by
  rw [added, newItems_concat, List.foldl_append]
  rfl

theorem added_mod (edits : List Edit) (key value : Bytes) :
    added (edits ++ [.mod key value]) = added edits := by
  rw [added, newItems_concat, List.foldl_append]
  rfl

theorem added_del (edits : List Edit) (key : Bytes) :
    added (edits ++ [.del key]) = added edits := by
  rw [added, newItems_concat, List.foldl_append]
  rfl

theorem touched_concat (map : ContentMap) (edits : List Edit) (edit : Edit) (key : Bytes) :
    Touched map (edits ++ [edit]) key ↔
      Touched map edits key ∨ map key ≠ none ∧ edit.Touches key := by
  simp only [Touched, List.mem_append, List.mem_singleton, or_and_right, exists_or,
    exists_eq_left, and_or_left]

namespace Edited

variable {delimeter : Bytes} {orig cfg : ContentMap} {edits : List Edit}
  {map : Bytes → Option Bytes}

/-- What a configuration just loaded has. -/
theorem start (delimeter : Bytes) {orig : ContentMap}
    (hplain : ∀ key cfgValue, orig key = some cfgValue →
      cfgValue.modified = false ∧ cfgValue.deleted = false) :
    Edited delimeter orig [] orig (contents orig) := by
  refine { known := fun _ => Iff.rfl, unmodified := ?_, clean := ?_, marked := ?_, readded := ?_,
           map := ?_, items := List.forall_mem_nil _ }
  · intro key cfgValue hvalue _
    simp [contents, hvalue]
  · intro key cfgValue hvalue hmodified
    rw [(hplain key cfgValue hvalue).1] at hmodified
    cases hmodified
  · intro key
    constructor
    · rintro ⟨cfgValue, hvalue, hmarks⟩
      simp [hplain key cfgValue hvalue] at hmarks
    · rintro ⟨-, edit, hmem, -⟩
      cases hmem
  · intro key _ hadded
    exact absurd rfl hadded
  · intro key _
    rcases hvalue : orig key with _ | cfgValue
    · simp [contents, hvalue]
    · simp [contents, hvalue, (hplain key cfgValue hvalue).2]

/-- `tmq_config_add` of a key that is absent. -/
theorem add (h : Edited delimeter orig edits cfg map) {key value : Bytes}
    (habsent : map key = none) (hitem : CleanItem delimeter (key, value)) :
    Edited delimeter orig (edits ++ [.add key value]) cfg (Edit.apply map (.add key value)) := by
  refine { known := h.known, unmodified := h.unmodified, clean := h.clean, marked := ?_,
           readded := ?_, map := ?_, items := ?_ }
  · intro k
    rw [touched_concat, h.marked k]
    exact (or_iff_left fun htouches => htouches.2).symm
  · intro k cfgValue hadded hvalue
    by_cases hold : added edits k = none
    · have hkey : key = k := by
        by_contra hne
        rw [added_add, FiniteMap.set_of_ne _ hne] at hadded
        exact hadded hold
      subst hkey
      have hmap := h.map key hold
      rw [habsent, hvalue] at hmap
      by_contra hdeleted
      simp [hdeleted] at hmap
    · exact h.readded k cfgValue hold hvalue
  · intro k hadded
    rw [added_add] at hadded
    have hne : key ≠ k := by
      rintro rfl
      rw [FiniteMap.set_self] at hadded
      cases hadded
    rw [FiniteMap.set_of_ne _ hne] at hadded
    exact (FiniteMap.set_of_ne _ hne _).trans (h.map k hadded)
  · rw [newItems_concat]
    exact List.forall_mem_append.mpr ⟨h.items, List.forall_mem_singleton.mpr hitem⟩

/-- `tmq_config_mod` and `tmq_config_del` of a key that the map does not have. -/
theorem unknown (h : Edited delimeter orig edits cfg map) {edit : Edit} {key : Bytes}
    (hkey : cfg key = none) (htouches : ∀ k, edit.Touches k → k = key)
    (hadded : added (edits ++ [edit]) = added edits) (hitems : newItems [edit] = [])
    (hothers : ∀ k, key ≠ k → edit.apply map k = map k)
    (hnone : map key = none → edit.apply map key = none) :
    Edited delimeter orig (edits ++ [edit]) cfg (edit.apply map) := by
  refine { known := h.known, unmodified := h.unmodified, clean := h.clean, marked := ?_,
           readded := ?_, map := ?_, items := ?_ }
  · intro k
    rw [touched_concat, h.marked k]
    refine (or_iff_left ?_).symm
    rintro ⟨hsome, htouch⟩
    rw [htouches k htouch] at hsome
    exact hsome ((h.known key).mp hkey)
  · rw [hadded]
    exact h.readded
  · intro k hk
    rw [hadded] at hk
    by_cases hne : key = k
    · subst hne
      have hmap := h.map key hk
      rw [hkey] at hmap ⊢
      exact hnone hmap
    · rw [hothers k hne]
      exact h.map k hk
  · rw [newItems_concat, hitems, List.append_nil]
    exact h.items

/-- The same of a key that the map has: its entry gets a mark. -/
theorem mark (h : Edited delimeter orig edits cfg map) {edit : Edit} {key : Bytes}
    {cfgValue cfgValue' : ConfigValue} (hkey : cfg key = some cfgValue)
    (htouches : ∀ k, edit.Touches k ↔ key = k)
    (hadded : added (edits ++ [edit]) = added edits) (hitems : newItems [edit] = [])
    (hmarks : cfgValue'.modified = true ∨ cfgValue'.deleted = true)
    (hunmodified : cfgValue'.modified = false → cfgValue'.value = cfgValue.value ∧
      cfgValue.modified = false)
    (hclean : cfgValue'.modified = true → cfgValue'.deleted = false →
      CleanItem delimeter (key, cfgValue'.value))
    (hdeleted : cfgValue.deleted = true → cfgValue'.deleted = true)
    (hothers : ∀ k, key ≠ k → edit.apply map k = map k)
    (hmap : added edits key = none →
      edit.apply map key = if cfgValue'.deleted then none else some cfgValue'.value) :
    Edited delimeter orig (edits ++ [edit]) (set cfg key cfgValue') (edit.apply map) := by
  refine { known := ?_, unmodified := ?_, clean := ?_, marked := ?_, readded := ?_, map := ?_,
           items := ?_ }
  · intro k
    by_cases hne : key = k
    · subst hne
      rw [FiniteMap.set_self, ← h.known key, hkey]
      simp
    · rw [FiniteMap.set_of_ne _ hne]
      exact h.known k
  · have hself : cfgValue'.modified = false → contents orig key = some cfgValue'.value := by
      intro hplain
      obtain ⟨hsame, hold⟩ := hunmodified hplain
      rw [hsame]
      exact h.unmodified key cfgValue hkey hold
    exact fun k value hvalue => FiniteMap.forall_set hself h.unmodified hvalue
  · exact fun k value hvalue => FiniteMap.forall_set hclean h.clean hvalue
  · intro k
    rw [touched_concat, ← h.marked k, htouches]
    by_cases hne : key = k
    · subst hne
      refine iff_of_true ⟨cfgValue', FiniteMap.set_self _ _ _, hmarks⟩ (Or.inr ⟨?_, rfl⟩)
      rw [ne_eq, ← h.known key, hkey]
      simp
    · rw [Marked, FiniteMap.set_of_ne _ hne]
      exact (or_iff_left fun hright => hne hright.2).symm
  · have hself : added edits key ≠ none → cfgValue'.deleted = true :=
      fun hk => hdeleted (h.readded key cfgValue hk hkey)
    intro k value hk hvalue
    rw [hadded] at hk
    have hothers := fun k value hvalue hk => h.readded k value hk hvalue
    exact FiniteMap.forall_set hself hothers hvalue hk
  · intro k hk
    rw [hadded] at hk
    by_cases hne : key = k
    · subst hne
      rw [FiniteMap.set_self]
      exact hmap hk
    · rw [FiniteMap.set_of_ne _ hne, hothers k hne]
      exact h.map k hk
  · rw [newItems_concat, hitems, List.append_nil]
    exact h.items

/-- `tmq_config_mod`. -/
theorem mod (h : Edited delimeter orig edits cfg map) {key value : Bytes} {cfgValue : ConfigValue}
    (hkey : cfg key = some cfgValue) (hclean : Clean delimeter key ∧ Clean delimeter value)
    (hshort : map key ≠ none → (itemLine delimeter (key, value)).length < maxLineSize - 1) :
    Edited delimeter orig (edits ++ [.mod key value])
      (set cfg key { cfgValue with value := value, modified := true })
      (Edit.apply map (.mod key value)) := by
  have hmap : added edits key = none →
      map key = if cfgValue.deleted then none else some cfgValue.value := by
    intro hadded
    rw [h.map key hadded, hkey]
    rfl
  refine h.mark hkey (fun _ => Iff.rfl) (added_mod edits key value) rfl (Or.inl rfl) ?_ ?_
    (fun hdeleted => hdeleted) ?_ ?_
  · intro hfalse
    cases hfalse
  · intro _ hdeleted
    refine ⟨hclean.1, hclean.2, hshort ?_⟩
    have hadded : added edits key = none := by
      by_contra hsome
      rw [h.readded key cfgValue hsome hkey] at hdeleted
      cases hdeleted
    change cfgValue.deleted = false at hdeleted
    simp [hmap hadded, hdeleted]
  · intro k hne
    by_cases hsome : (map key).isSome
    · rw [Edit.apply, if_pos hsome, FiniteMap.set_of_ne _ hne]
    · rw [Edit.apply, if_neg hsome]
  · intro hadded
    have hmap := hmap hadded
    cases hdeleted : cfgValue.deleted <;> simp [Edit.apply, hmap, hdeleted]

/-- `tmq_config_del`. -/
theorem del (h : Edited delimeter orig edits cfg map) {key : Bytes} {cfgValue : ConfigValue}
    (hkey : cfg key = some cfgValue) :
    Edited delimeter orig (edits ++ [.del key]) (set cfg key { cfgValue with deleted := true })
      (Edit.apply map (.del key)) := by
  refine h.mark hkey (fun _ => Iff.rfl) (added_del edits key) rfl (Or.inr rfl) ?_ ?_
    (fun _ => rfl) ?_ ?_
  · intro hmodified
    exact ⟨rfl, hmodified⟩
  · intro _ hfalse
    cases hfalse
  · intro k hne
    exact FiniteMap.unset_of_ne _ hne
  · intro _
    exact FiniteMap.unset_self _ _

end Edited

structure EditedConf (delimeter content : Bytes) (orig : ContentMap) (edits : List Edit)
    (conf : TmqConfig) (map : Bytes → Option Bytes) : Prop where
  file : conf.fp = some content
  separator : conf.delimeter = delimeter
  waiting : conf.newItems = some (newItems edits)
  mod : conf.mod = true ↔ ∃ key, Touched orig edits key
  cfg : ∃ cfg, conf.cfg = some cfg ∧ Edited delimeter orig edits cfg map

namespace EditedConf

variable {delimeter content : Bytes} {orig cfg : ContentMap} {edits : List Edit}
  {conf : TmqConfig} {map : Bytes → Option Bytes}

theorem add (h : EditedConf delimeter content orig edits conf map) {key value : Bytes}
    (habsent : map key = none) (hitem : CleanItem delimeter (key, value)) :
    EditedConf delimeter content orig (edits ++ [.add key value])
      { conf with newItems := some (newItems edits ++ [(key, value)]) }
      (Edit.apply map (.add key value)) := by
  obtain ⟨cfg, hcfg, hedited⟩ := h.cfg
  refine { file := h.file, separator := h.separator, waiting := ?_, mod := ?_,
           cfg := ⟨cfg, hcfg, hedited.add habsent hitem⟩ }
  · rw [newItems_concat]
    rfl
  · refine h.mod.trans (exists_congr fun k => ?_)
    rw [touched_concat]
    exact (or_iff_left fun htouches => htouches.2).symm

/-- An edit of a key that the map does not have leaves the configuration as it
is. -/
theorem unknown (h : EditedConf delimeter content orig edits conf map) (hcfg : conf.cfg = some cfg)
    {edit : Edit} {key : Bytes} (hkey : cfg key = none) (htouches : ∀ k, edit.Touches k → k = key)
    (hadded : added (edits ++ [edit]) = added edits) (hitems : newItems [edit] = [])
    (hothers : ∀ k, key ≠ k → edit.apply map k = map k)
    (hnone : map key = none → edit.apply map key = none) :
    EditedConf delimeter content orig (edits ++ [edit]) conf (edit.apply map) := by
  obtain ⟨cfg', hcfg', hedited⟩ := h.cfg
  obtain rfl := Option.some.inj (hcfg'.symm.trans hcfg)
  refine { file := h.file, separator := h.separator, waiting := ?_, mod := ?_,
           cfg := ⟨cfg', hcfg, hedited.unknown hkey htouches hadded hitems hothers hnone⟩ }
  · rw [newItems_concat, hitems, List.append_nil]
    exact h.waiting
  · refine h.mod.trans (exists_congr fun k => ?_)
    rw [touched_concat]
    refine (or_iff_left ?_).symm
    rintro ⟨hsome, htouch⟩
    rw [htouches k htouch] at hsome
    exact hsome ((hedited.known key).mp hkey)

/-- An edit that marks an entry. -/
theorem mark (h : EditedConf delimeter content orig edits conf map) {edit : Edit} {key : Bytes}
    (hkey : orig key ≠ none) (htouches : edit.Touches key) (hitems : newItems [edit] = [])
    (hedited : Edited delimeter orig (edits ++ [edit]) cfg (edit.apply map)) :
    EditedConf delimeter content orig (edits ++ [edit]) { conf with cfg := some cfg, mod := true }
      (edit.apply map) := by
  refine { file := h.file, separator := h.separator, waiting := ?_, mod := ?_,
           cfg := ⟨cfg, rfl, hedited⟩ }
  · rw [newItems_concat, hitems, List.append_nil]
    exact h.waiting
  · exact iff_of_true rfl ⟨key, (touched_concat _ _ _ _).mpr (Or.inr ⟨hkey, htouches⟩)⟩

theorem step_mod (h : EditedConf delimeter content orig edits conf map) {key value : Bytes}
    (hallowed : EditAllowed delimeter map (.mod key value)) :
    ∃ next, conf.tmqConfigMod key value = some next ∧
      EditedConf delimeter content orig (edits ++ [.mod key value]) next
        (Edit.apply map (.mod key value)) := by
  obtain ⟨hkey, hvalue, hshort⟩ := hallowed
  obtain ⟨cfg, hcfg, hedited⟩ := h.cfg
  cases hold : cfg key with
  | none =>
      refine ⟨conf, by simp [TmqConfig.tmqConfigMod, hcfg, hkey.cstr_eq, hold],
        h.unknown hcfg hold (fun k htouch => htouch.symm) (added_mod edits key value) rfl ?_ ?_⟩
      · intro k hne
        by_cases hsome : (map key).isSome
        · rw [Edit.apply, if_pos hsome, FiniteMap.set_of_ne _ hne]
        · rw [Edit.apply, if_neg hsome]
      · intro hnone
        rw [Edit.apply, hnone]
        exact hnone
  | some cfgValue =>
      have horig : orig key ≠ none := by
        rw [ne_eq, ← hedited.known key, hold]
        simp
      refine ⟨_, ?_, h.mark horig rfl rfl (hedited.mod hold ⟨hkey, hvalue⟩ hshort)⟩
      simp [TmqConfig.tmqConfigMod, hcfg, hkey.cstr_eq, hvalue.cstr_eq, hold]

theorem step_del (h : EditedConf delimeter content orig edits conf map) {key : Bytes}
    (hkey : Clean delimeter key) :
    ∃ next, conf.tmqConfigDel key = some next ∧
      EditedConf delimeter content orig (edits ++ [.del key]) next
        (Edit.apply map (.del key)) := by
  obtain ⟨cfg, hcfg, hedited⟩ := h.cfg
  cases hold : cfg key with
  | none =>
      refine ⟨conf, by simp [TmqConfig.tmqConfigDel, hcfg, hkey.cstr_eq, hold],
        h.unknown hcfg hold (fun k htouch => htouch.symm) (added_del edits key) rfl ?_ ?_⟩
      · intro k hne
        exact FiniteMap.unset_of_ne _ hne
      · intro _
        exact FiniteMap.unset_self _ _
  | some cfgValue =>
      have horig : orig key ≠ none := by
        rw [ne_eq, ← hedited.known key, hold]
        simp
      refine ⟨_, ?_, h.mark horig rfl rfl (hedited.del hold)⟩
      simp [TmqConfig.tmqConfigDel, hcfg, hkey.cstr_eq, hold]

/-- One edit. -/
theorem step (h : EditedConf delimeter content orig edits conf map) {edit : Edit}
    (hallowed : EditAllowed delimeter map edit) :
    ∃ next, Edit.run conf edit = some next ∧
      EditedConf delimeter content orig (edits ++ [edit]) next (edit.apply map) := by
  cases edit with
  | add key value =>
      obtain ⟨habsent, hitem⟩ := hallowed
      refine ⟨_, ?_, h.add habsent hitem⟩
      simp [Edit.run, TmqConfig.tmqConfigAdd, h.waiting, hitem.1.cstr_eq, hitem.2.1.cstr_eq]
  | mod key value => exact h.step_mod hallowed
  | del key => exact h.step_del hallowed

/-- All of them. -/
theorem runs {done : List Edit} (h : EditedConf delimeter content orig done conf map)
    (hedits : Admissible (EditAllowed delimeter) (fun map edit => some (Edit.apply map edit)) map
      edits) :
    ∃ edited, Run.runs Edit.run conf edits = some edited ∧
      EditedConf delimeter content orig (done ++ edits) edited (edits.foldl Edit.apply map) := by
  induction edits generalizing done conf map with
  | nil => exact ⟨conf, rfl, (List.append_nil done).symm ▸ h⟩
  | cons edit edits ih =>
      obtain ⟨hallowed, hrest⟩ := hedits
      obtain ⟨next, hrun, hnext⟩ := h.step hallowed
      obtain ⟨edited, hruns, hedited⟩ := ih hnext hrest
      refine ⟨edited, ?_, ?_⟩
      · rw [Run.runs, hrun]
        exact hruns
      · rw [List.append_assoc] at hedited
        exact hedited

end EditedConf

/-! ### The file after the edits -/

theorem fileLines_fileOf {lines : List Bytes} {last : Bytes}
    (hlines : ∀ line ∈ lines, ShortLine line) (hlast : ShortLine last) :
    fileLines (fileOf lines last) = (lines ++ [last]).map cstr := by
  rw [fileLines, fileOf_splitOn hlines hlast]

theorem last_eq_nil_of_endsLine {lines : List Bytes} {last : Bytes} (hlast : ShortLine last)
    (h : EndsLine (fileOf lines last)) : last = [] := by
  by_contra hne
  rcases h with h | h
  · exact hne (List.append_eq_nil_iff.mp h).2
  · rw [fileOf, List.getLast?_append_of_ne_nil _ hne] at h
    exact hlast.single (List.mem_of_getLast? h)

theorem map_cstr_eq {lines : List Bytes} (hplain : ∀ line ∈ lines, 0 ∉ line) :
    lines.map cstr = lines := by
  conv_rhs => rw [← List.map_id lines]
  exact List.map_congr_left fun line hline => (cstr_eq_self_iff line).mpr (hplain line hline)

/-- The marks of a map that was just read are clear. -/
theorem foldlM_plain {delimeter : Bytes} {lines : List Bytes} {r next : Reading}
    (h : lines.foldlM (readEntry delimeter) r = some next)
    (hplain : ∀ key cfgValue, r.map key = some cfgValue →
      cfgValue.modified = false ∧ cfgValue.deleted = false) :
    ∀ key cfgValue, next.map key = some cfgValue →
      cfgValue.modified = false ∧ cfgValue.deleted = false := by
  have hput : ∀ (r : Reading) (key value : Bytes), (∀ key cfgValue, r.map key = some cfgValue →
      cfgValue.modified = false ∧ cfgValue.deleted = false) →
      ∀ k cfgValue, (r.put key value).map k = some cfgValue →
        cfgValue.modified = false ∧ cfgValue.deleted = false := by
    intro r key value hr k cfgValue hvalue
    by_cases hne : key = k
    · subst hne
      obtain rfl := Option.some.inj ((FiniteMap.set_self _ _ _).symm.trans hvalue)
      exact ⟨rfl, rfl⟩
    · exact hr k cfgValue ((FiniteMap.set_of_ne _ hne _).symm.trans hvalue)
  induction lines generalizing r with
  | nil =>
      obtain rfl := Option.some.inj h
      exact hplain
  | cons line lines ih =>
      obtain ⟨middle, hfirst, hrest⟩ := Option.bind_eq_some_iff.mp h
      apply ih hrest
      rcases readEntry_cases hfirst with ⟨-, rfl⟩ | ⟨_, key, value, -, -, -, rfl⟩ |
        ⟨key, value, -, -, rfl⟩
      · exact hplain
      · exact hput r _ _ hplain
      · exact hput r _ _ hplain

/-- Items behind a file that ends with a newline. -/
theorem readConfigFile_append {delimeter : Bytes} (hdelimeter : ProperDelimeter delimeter)
    {lines : List Bytes} (hlines : ∀ line ∈ lines, ShortLine line) {map : ContentMap}
    (hread : readConfigFile delimeter (fileOf lines []) (fun _ => none) = some (0, map))
    {items : List (Bytes × Bytes)} (hitems : ∀ item ∈ items, CleanItem delimeter item) :
    readConfigFile delimeter
        (fileOf lines [] ++ items.flatMap fun item => itemLine delimeter item ++ [newline])
        (fun _ => none) =
      some (0, items.foldl (fun map item => set map item.1 ⟨item.2, false, false⟩) map) := by
  have hempty : ShortLine [] := ⟨List.not_mem_nil, by decide⟩
  have hfile : fileOf lines [] ++ items.flatMap (fun item => itemLine delimeter item ++ [newline])
      = fileOf (lines ++ items.map (itemLine delimeter)) [] := by
    simp [fileOf, List.flatMap_map]
  have hitemLines : ∀ line ∈ items.map (itemLine delimeter), PlainLine line := by
    refine List.forall_mem_map.mpr fun item hitem => ?_
    exact ⟨shortLine_itemLine hdelimeter (hitems item hitem),
      zero_not_mem_itemLine hdelimeter (hitems item hitem)⟩
  have hput : ∀ (items : List (Bytes × Bytes)) (r : Reading),
      (∀ item ∈ items, CleanItem delimeter item) → ∃ next,
        ((items.map (itemLine delimeter)).map cstr ++ [[]]).foldlM (readEntry delimeter) r
          = some next ∧
        next.map = items.foldl (fun map item => set map item.1 ⟨item.2, false, false⟩) r.map := by
    intro items
    induction items with
    | nil =>
        intro r _
        exact ⟨{ r with pending := none }, congrArg (· >>= pure) (readEntry_nil delimeter r), rfl⟩
    | cons item items ih =>
        intro r hall
        obtain ⟨hitem, hrest⟩ := List.forall_mem_cons.mp hall
        obtain ⟨next, hnext, hmap⟩ := ih (r.put item.1 item.2) hrest
        refine ⟨next, ?_, hmap⟩
        rw [List.map_cons, List.map_cons, List.cons_append, List.foldlM_cons,
          (cstr_eq_self_iff _).mpr (zero_not_mem_itemLine hdelimeter hitem),
          readEntry_itemLine hdelimeter hitem]
        exact hnext
  obtain ⟨hheads, r, hr, rfl⟩ := (readConfigFile_fileOf_iff hlines hempty map).mp hread
  rw [List.map_append, List.foldlM_append] at hr
  obtain ⟨middle, hmiddle, hend⟩ := Option.bind_eq_some_iff.mp hr
  have hsame : r.map = middle.map := by
    rw [List.map_singleton, List.foldlM_cons, show cstr [] = [] from rfl, readEntry_nil] at hend
    obtain rfl := Option.some.inj hend
    rfl
  obtain ⟨next, hnext, hmap⟩ := hput items middle hitems
  rw [hfile, readConfigFile_fileOf_iff (List.forall_mem_append.mpr
    ⟨hlines, fun line hline => (hitemLines line hline).toShortLine⟩) hempty, hsame]
  refine ⟨?_, next, ?_, hmap⟩
  · rw [List.forall_mem_append] at hheads
    refine List.forall_mem_append.mpr ⟨List.forall_mem_append.mpr ⟨hheads.1, ?_⟩, hheads.2⟩
    intro line hline hzero
    exact (hitemLines line hline).plain (List.mem_of_head? hzero)
  · rw [List.append_assoc, List.map_append, List.foldlM_append, hmiddle, List.map_append]
    exact hnext

structure CopiedFile (delimeter : Bytes) (items : List (Bytes × Bytes)) (map : ContentMap)
    (lines : List Bytes) (last : Bytes) : Prop where
  shortLines : ∀ line ∈ lines, ShortLine line
  read : readConfigFile delimeter (fileOf lines last) (fun _ => none) = some (0, map)
  ends : items ≠ [] → last = []

section Copy

variable {delimeter : Bytes} {orig cfg : ContentMap} {edits : List Edit}
  {map : Bytes → Option Bytes} {lines : List Bytes} {last : Bytes}

/-- Without a mark the file stays as it is. -/
theorem Edited.copy_unmarked (h : Edited delimeter orig edits cfg map)
    (hlines : ∀ line ∈ lines, ShortLine line) (hlast : ShortLine last)
    (hread : readConfigFile delimeter (fileOf lines last) (fun _ => none) = some (0, orig))
    (hsafe : SyncSafe delimeter (fileOf lines last) orig edits)
    (hnone : ∀ key, ¬Touched orig edits key) (n : Bytes → Nat) :
    CopiedFile delimeter (newItems edits) (fun key => copied cfg (n key) key (orig key))
      lines last := by
  refine { shortLines := hlines, read := ?_, ends := ?_ }
  · rw [hread]
    refine congrArg (fun map => some (0, map)) ?_
    funext key
    rw [copied_of_not]
    rintro ⟨-, hmarked⟩
    exact hnone key ((h.marked key).mp hmarked)
  · intro hitems
    rcases hsafe.append hitems with hends | ⟨key, -, -, htouched⟩
    · exact last_eq_nil_of_endsLine hlast hends
    · exact absurd htouched (hnone key)

/-- With a mark its lines are copied. -/
theorem Edited.copy_marked (hdelimeter : ProperDelimeter delimeter)
    (h : Edited delimeter orig edits cfg map)
    (hlines : ∀ line ∈ lines, ShortLine line) (hlast : ShortLine last)
    (hread : readConfigFile delimeter (fileOf lines last) (fun _ => none) = some (0, orig))
    (hsafe : SyncSafe delimeter (fileOf lines last) orig edits)
    (hmarked : ∃ key, Touched orig edits key) :
    ∃ out last', (syncLoop delimeter ⟨cfg, false⟩ (pieces (fileOf lines last))).1
        = fileOf out last' ∧
      CopiedFile delimeter (newItems edits)
        (fun key => copied cfg (keyLines delimeter (fileLines (fileOf lines last)) key) key
          (orig key)) out last' := by
  obtain ⟨hplain, hdelims⟩ := hsafe.rewrite hmarked
  rw [fileOf_splitOn hlines hlast, List.dropLast_concat] at hplain hdelims
  have hsafeLines : ∀ before line, before ++ [line] <+: lines →
      SafeLine delimeter (Marked cfg) before line := by
    intro before line hbefore
    have hline : line ∈ lines := hbefore.subset (List.mem_append_right _ List.mem_cons_self)
    exact { toShortLine := hlines line hline, plain := fun hzero =>
              (hplain before line hbefore hzero).imp fun key hkey =>
                ⟨hkey.1, hkey.2.1, (h.marked key).mpr hkey.2.2⟩,
            last := hdelims line hline }
  have hfileLines := fileLines_fileOf hlines hlast
  obtain ⟨hheads, file, hfile, rfl⟩ := (readConfigFile_fileOf_iff hlines hlast orig).mp hread
  obtain ⟨out, last', hloop, hout, hlast', ⟨r, hr, hmap⟩, hend⟩ :=
    syncLoop_file hdelimeter h.clean hsafeLines hlast hheads hfile
  have houtPlain : ∀ line ∈ out ++ [last'], 0 ∉ line := by
    refine List.forall_mem_append.mpr ⟨fun line hline => (hout line hline).plain, ?_⟩
    exact List.forall_mem_singleton.mpr hlast'.plain
  have hshort : ∀ line ∈ out, ShortLine line := fun line hline => (hout line hline).toShortLine
  refine ⟨out, last', hloop,
    { shortLines := hshort, read := ?_, ends := ?_ }⟩
  · rw [readConfigFile_fileOf_iff hshort hlast'.toShortLine]
    refine ⟨fun line hline hhead => houtPlain line hline (List.mem_of_head? hhead), r, ?_, ?_⟩
    · rw [map_cstr_eq houtPlain]
      exact hr
    · funext key
      rw [hmap key, hfileLines]
  · intro hitems
    apply hend
    rcases hsafe.append hitems with hends | ⟨key, hkey, hone, htouched⟩
    · exact Or.inl (last_eq_nil_of_endsLine hlast hends)
    · rw [hfileLines] at hkey hone
      exact Or.inr ⟨key, hkey, hone, (h.marked key).mpr htouched⟩

theorem Edited.exists_copy (hdelimeter : ProperDelimeter delimeter)
    (h : Edited delimeter orig edits cfg map)
    (hlines : ∀ line ∈ lines, ShortLine line) (hlast : ShortLine last)
    (hread : readConfigFile delimeter (fileOf lines last) (fun _ => none) = some (0, orig))
    (hsafe : SyncSafe delimeter (fileOf lines last) orig edits) {mod : Bool}
    (hmod : mod = true ↔ ∃ key, Touched orig edits key) :
    ∃ out last', (if mod then (syncLoop delimeter ⟨cfg, false⟩ (pieces (fileOf lines last))).1
        else fileOf lines last) = fileOf out last' ∧
      CopiedFile delimeter (newItems edits)
        (fun key => copied cfg (keyLines delimeter (fileLines (fileOf lines last)) key) key
          (orig key)) out last' := by
  cases mod with
  | false =>
      have hnone : ∀ key, ¬Touched orig edits key := by
        intro key htouched
        exact Bool.false_ne_true (hmod.mpr ⟨key, htouched⟩)
      exact ⟨lines, last, rfl, h.copy_unmarked hlines hlast hread hsafe hnone _⟩
  | true => exact h.copy_marked hdelimeter hlines hlast hread hsafe (hmod.mp rfl)

end Copy

theorem tmqConfigReload_eq {conf : TmqConfig} {content : Bytes} {cfg map : ContentMap} {err : Int}
    (hfp : conf.fp = some content) (hcfg : conf.cfg = some cfg)
    (hread : readConfigFile conf.delimeter content (fun _ => none) = some (err, map)) :
    conf.tmqConfigReload = some { conf with cfg := some map } := by
  simp [TmqConfig.tmqConfigReload, hfp, hcfg, hread]

/-- A sync and a reload, when it is known what the copy of the file is read
as. -/
theorem EditedConf.sync_reload {delimeter content : Bytes} (hdelimeter : ProperDelimeter delimeter)
    {orig cfg copy : ContentMap} {edits : List Edit} {conf : TmqConfig}
    {map : Bytes → Option Bytes} (h : EditedConf delimeter content orig edits conf map)
    (hcfg : conf.cfg = some cfg) (hitems : ∀ item ∈ newItems edits, CleanItem delimeter item)
    {out : List Bytes} {last : Bytes}
    (hcopy : (if conf.mod then (syncLoop delimeter ⟨cfg, false⟩ (pieces content)).1 else content)
      = fileOf out last)
    (hcopied : CopiedFile delimeter (newItems edits) copy out last) :
    ∃ synced reloaded, conf.tmqConfigSync = some synced ∧
      synced.tmqConfigReload = some reloaded ∧ reloaded.cfg = some ((newItems edits).foldl
        (fun map item => set map item.1 ⟨item.2, false, false⟩) copy) := by
  have hsync : conf.tmqConfigSync = some { conf with
      fp := some (fileOf out last ++
        (newItems edits).flatMap fun item => itemLine delimeter item ++ [newline])
      mod := false
      cfg := some (if conf.mod then (syncLoop delimeter ⟨cfg, false⟩ (pieces content)).2 else cfg)
      newItems := some []
      delimeter := delimeter } := by
    rw [← hcopy]
    cases hmod : conf.mod <;>
      simp [TmqConfig.tmqConfigSync, h.file, hcfg, h.waiting, h.separator, hmod]
  have hfile : readConfigFile delimeter (fileOf out last ++
      (newItems edits).flatMap fun item => itemLine delimeter item ++ [newline]) (fun _ => none)
      = some (0, (newItems edits).foldl
        (fun map item => set map item.1 ⟨item.2, false, false⟩) copy) := by
    have hread := hcopied.read
    by_cases hnone : newItems edits = []
    · rw [hnone, List.flatMap_nil, List.append_nil]
      exact hread
    · rw [hcopied.ends hnone] at hread ⊢
      exact readConfigFile_append hdelimeter hcopied.shortLines hread hitems
  exact ⟨_, _, hsync, tmqConfigReload_eq rfl rfl hfile, rfl⟩

/-- Of the items put one after the other the last one with a key stays. -/
theorem foldl_set_eq (items : List (Bytes × Bytes)) (map : ContentMap) (key : Bytes) :
    items.foldl (fun map item => set map item.1 ⟨item.2, false, false⟩) map key =
      ((items.foldl (fun map item => set map item.1 item.2) (fun _ => none) key).map
        fun value => ⟨value, false, false⟩).or (map key) := by
  induction items using List.reverseRecOn with
  | nil => rfl
  | append_singleton items item ih =>
      rw [List.foldl_append, List.foldl_append, List.foldl_cons, List.foldl_cons, List.foldl_nil,
        List.foldl_nil]
      by_cases hne : item.1 = key
      · rw [← hne, FiniteMap.set_self, FiniteMap.set_self]
        rfl
      · rw [FiniteMap.set_of_ne _ hne, FiniteMap.set_of_ne _ hne]
        exact ih

def loaded (filename delimeter content : Bytes) (map : ContentMap) : TmqConfig :=
  { fp := some content, mod := false, cfg := some map, newItems := some [],
    delimeter := delimeter, filename := some filename }

/-- For a key that was not added the copy has its value just when the edits
leave it as it is, or there is no second line. -/
theorem copied_eq_iff {delimeter : Bytes} {orig cfg : ContentMap} {edits : List Edit}
    {map : Bytes → Option Bytes} (h : Edited delimeter orig edits cfg map)
    (hplain : ∀ key cfgValue, orig key = some cfgValue →
      cfgValue.modified = false ∧ cfgValue.deleted = false)
    {key : Bytes} (hadded : added edits key = none) (n : Nat) :
    copied cfg n key (orig key) = plainMap map key ↔ map key = contents orig key ∨ n = 1 := by
  have horig : orig key = plainMap (contents orig) key := by
    cases hkey : orig key with
    | none => simp [plainMap, contents, hkey]
    | some cfgValue =>
        obtain ⟨value, modified, deleted⟩ := cfgValue
        obtain ⟨rfl, rfl⟩ := hplain key _ hkey
        simp [plainMap, contents, hkey]
  have hinj : orig key = plainMap map key ↔ map key = contents orig key := by
    rw [horig]
    constructor
    · intro hsame
      have hvalues := congrArg (Option.map ConfigValue.value) hsame
      simpa [plainMap, Function.comp_def] using hvalues.symm
    · intro hsame
      rw [plainMap, plainMap, hsame]
  by_cases hn : n = 1
  · rw [or_iff_right_of_imp fun _ => hn]
    refine iff_of_true ?_ hn
    have hmap := h.map key hadded
    cases hkey : cfg key with
    | none =>
        rw [hkey] at hmap
        simp [copied, plainMap, hkey, hmap, (h.known key).mp hkey]
    | some cfgValue =>
        rw [hkey, Option.bind_some] at hmap
        cases hdeleted : cfgValue.deleted with
        | true => simp [copied, plainMap, hkey, hmap, hn, hdeleted]
        | false =>
            cases hmodified : cfgValue.modified with
            | true => simp [copied, plainMap, hkey, hmap, hn, hdeleted, hmodified]
            | false =>
                have hvalue := h.unmodified key cfgValue hkey hmodified
                rw [horig]
                simp [copied, plainMap, hkey, hmap, hn, hdeleted, hmodified, hvalue]
  · rw [or_iff_left hn, ← hinj, copied_of_not fun hone => hn hone.1]

/-- For files and edits that the two passes are safe for, the edits survive just
when they end, for every key, with what reaches the file. -/
theorem survivesReload_iff {filename delimeter content : Bytes} {map : ContentMap}
    {edits : List Edit} (hdelimeter : ProperDelimeter delimeter)
    (hshort : ∀ line ∈ content.splitOn newline, line.length < maxLineSize - 1)
    (hread : readConfigFile delimeter content (fun _ => none) = some (0, map))
    (hedits : Admissible (EditAllowed delimeter) (fun map edit => some (Edit.apply map edit))
      (contents map) edits)
    (hsafe : SyncSafe delimeter content map edits) :
    SurvivesReload (loaded filename delimeter content map) map edits ↔
      EditsReachFile delimeter content map edits := by
  obtain ⟨lines, last, rfl, hlines, hlast⟩ := exists_fileOf hshort
  obtain ⟨-, file, hfile, rfl⟩ := (readConfigFile_fileOf_iff hlines hlast map).mp hread
  have hplain := foldlM_plain hfile fun _ _ hnone => absurd hnone.symm (Option.some_ne_none _)
  have hstart : EditedConf delimeter (fileOf lines last) file.map []
      (loaded filename delimeter (fileOf lines last) file.map) (contents file.map) :=
    { file := rfl
      separator := rfl
      waiting := rfl
      mod := by simp [loaded, Touched]
      cfg := ⟨file.map, rfl, Edited.start delimeter hplain⟩ }
  obtain ⟨conf, hruns, hconf⟩ := hstart.runs hedits
  rw [List.nil_append] at hconf
  obtain ⟨cfg, hcfg, hedited⟩ := hconf.cfg
  obtain ⟨out, last', hcopy, hcopied⟩ :=
    hedited.exists_copy hdelimeter hlines hlast hread hsafe hconf.mod
  obtain ⟨synced, reloaded, hsync, hreloaded, hmap⟩ :=
    hconf.sync_reload hdelimeter hcfg hedited.items hcopy hcopied
  have hiff : SurvivesReload (loaded filename delimeter (fileOf lines last) file.map) file.map edits
      ↔ reloaded.cfg = some (plainMap (edits.foldl Edit.apply (contents file.map))) := by
    constructor
    · rintro ⟨conf', synced', reloaded', hruns', hsync', hreloaded', hcfg'⟩
      obtain rfl := Option.some.inj (hruns.symm.trans hruns')
      obtain rfl := Option.some.inj (hsync.symm.trans hsync')
      obtain rfl := Option.some.inj (hreloaded.symm.trans hreloaded')
      exact hcfg'
    · intro hcfg'
      exact ⟨conf, synced, reloaded, hruns, hsync, hreloaded, hcfg'⟩
  rw [hiff, hmap, Option.some.injEq, funext_iff]
  refine forall_congr' fun key => ?_
  rw [foldl_set_eq]
  change ((added edits key).map _).or _ = _ ↔ _
  cases hadded : added edits key with
  | none => exact copied_eq_iff hedited hplain hadded _
  | some value =>
      change some _ = plainMap _ key ↔ _ = some value
      rw [plainMap, eq_comm, Option.map_eq_some_iff]
      simp

/-- The file of `a=1`, with a zero byte before its newline, and `b=2`. -/
def twoLines : Bytes := [97, 61, 49, 0, 10, 98, 61, 50, 10]

def twoEntries : ContentMap :=
  set (set (fun _ => none) [97] ⟨[49], false, false⟩) [98] ⟨[50], false, false⟩

/-- `a` is changed and `k` added: the line with the zero byte is not copied. -/
theorem survivesReload_two : SurvivesReload (loaded [99] [61] twoLines twoEntries) twoEntries
    [.mod [97] [50], .add [107] [118]] := by
  have hread : readConfigFile [61] twoLines (fun _ => none) = some (0, twoEntries) := rfl
  have hproper : ProperDelimeter [61] := ⟨by decide, by decide +kernel, by decide⟩
  have hedits : Admissible (EditAllowed [61]) (fun map edit => some (Edit.apply map edit))
      (contents twoEntries) [.mod [97] [50], .add [107] [118]] := by decide +kernel
  have htouched : Touched twoEntries [.mod [97] [50], .add [107] [118]] [97] :=
    ⟨by decide, .mod [97] [50], List.mem_cons_self, rfl⟩
  have hrewrite : RewriteSafe [61] twoLines twoEntries [.mod [97] [50], .add [107] [118]] := by
    refine ⟨?_, by decide⟩
    rintro before line ⟨rest, hlines⟩ hzero
    change before ++ [line] ++ rest = [[97, 61, 49, 0], [98, 61, 50]] at hlines
    rcases before with _ | ⟨first, _ | ⟨second, before⟩⟩
    · obtain ⟨rfl, -⟩ := List.cons.inj hlines
      exact ⟨[97], by decide, by decide, htouched⟩
    · obtain ⟨-, hlines⟩ := List.cons.inj hlines
      obtain ⟨rfl, -⟩ := List.cons.inj hlines
      exact absurd hzero (by decide)
    · simp at hlines
  refine (survivesReload_iff hproper (by decide) hread hedits
    ⟨fun _ => hrewrite, fun _ => Or.inl (Or.inr rfl)⟩).mpr fun key => ?_
  by_cases hk : [107] = key
  · subst hk
    rfl
  · have hadded : added [.mod [97] [50], .add [107] [118]] key = none := by
      change set (fun _ => none) [107] [118] key = none
      exact FiniteMap.set_of_ne _ hk _
    rw [hadded]
    by_cases ha : [97] = key
    · subst ha
      exact Or.inr (by decide)
    · refine Or.inl ((FiniteMap.set_of_ne _ hk _).trans ?_)
      exact FiniteMap.set_of_ne _ ha _

/-- `k` deleted from a file that has two lines of it. -/
theorem not_survivesReload_repeated : ¬SurvivesReload
    (loaded [99] [61] [107, 61, 49, 10, 107, 61, 50, 10]
      (set (fun _ => none) [107] ⟨[50], false, false⟩))
    (set (fun _ => none) [107] ⟨[50], false, false⟩) [.del [107]] := by
  rintro ⟨edited, synced, reloaded, hruns, hsync, hreload, hcfg⟩
  have hkey : (do
      let edited ← runs Edit.run (loaded [99] [61] [107, 61, 49, 10, 107, 61, 50, 10]
        (set (fun _ => none) [107] ⟨[50], false, false⟩)) [.del [107]]
      let synced ← edited.tmqConfigSync
      let reloaded ← synced.tmqConfigReload
      let cfg ← reloaded.cfg
      cfg [107]) = some ⟨[50], false, false⟩ := by rfl
  simp only [hruns, hsync, hreload, hcfg, Option.bind_eq_bind, Option.bind_some] at hkey
  cases hkey

end TinyMqtt.ConfigFile
