import TinyMqtt.Config.Lines

/-!
The reader of a configuration file as a fold over its lines, and the lines that
`tmq_config_sync` writes, read back.
-/

namespace TinyMqtt.ConfigFile

open FiniteMap (set unset)
open RuleParser (isBlank)

/-! ### Reading, with each value put at once -/

/-- The map with the value that is being parsed in it, and the entry of that
value. -/
structure Reading where
  map : ContentMap
  pending : Option (Bytes × Bytes)

def Reading.empty : Reading := { map := fun _ => none, pending := none }

def Reading.put (r : Reading) (key value : Bytes) : Reading :=
  { map := set r.map key ⟨value, false, false⟩, pending := some (key, value) }

def ReadState.reading (st : ReadState) : Reading :=
  { map := st.put, pending := if st.parsingValue then some (st.key, st.value) else none }

def readEntry (delimeter : Bytes) (r : Reading) (line : Bytes) : Option Reading :=
  if Carries line then
    match tmqStrSplit line delimeter, r.pending with
    | [part], some (key, value) => some (r.put key (tmqStrTrim (value ++ part)))
    | [key, value], _ => some (r.put (tmqStrTrim key) (tmqStrTrim value))
    | _, _ => none
  else some { r with pending := none }

theorem readLine_reading (delimeter : Bytes) (st : ReadState) (line : Bytes) :
    (readLine delimeter st line).map ReadState.reading = readEntry delimeter st.reading line := by
  unfold readLine readEntry
  by_cases hline : Carries line
  · have hcontent : ¬(line = [] ∨ hash ∈ line) := not_or.mpr hline
    rw [if_neg hcontent, if_pos hline]
    rcases tmqStrSplit line delimeter with _ | ⟨first, _ | ⟨second, _ | ⟨third, more⟩⟩⟩
    · rfl
    · cases hparsing : st.parsingValue with
      | false => simp [ReadState.reading, hparsing]
      | true => simp [ReadState.reading, ReadState.put, Reading.put, hparsing, FiniteMap.set_set]
    · cases hparsing : st.parsingValue <;>
        simp [ReadState.reading, ReadState.put, Reading.put, hparsing]
    · rfl
  · have hcontent : line = [] ∨ hash ∈ line := by
      by_contra h
      exact hline (not_or.mp h)
    rw [if_pos hcontent, if_neg hline]
    cases hparsing : st.parsingValue <;> simp [ReadState.reading, ReadState.put, hparsing]

/-- What a line that is taken does. -/
theorem readEntry_cases {delimeter : Bytes} {r next : Reading} {line : Bytes}
    (h : readEntry delimeter r line = some next) :
    (¬Carries line ∧ next = { r with pending := none }) ∨
      (∃ part key value, Carries line ∧ tmqStrSplit line delimeter = [part] ∧
        r.pending = some (key, value) ∧ next = r.put key (tmqStrTrim (value ++ part))) ∨
      ∃ key value, Carries line ∧ tmqStrSplit line delimeter = [key, value] ∧
        next = r.put (tmqStrTrim key) (tmqStrTrim value) := by
  unfold readEntry at h
  by_cases hline : Carries line
  · rw [if_pos hline] at h
    rcases hsplit : tmqStrSplit line delimeter with _ | ⟨first, _ | ⟨second, _ | ⟨third, more⟩⟩⟩
    · simp [hsplit] at h
    · rcases hpending : r.pending with _ | ⟨key, value⟩
      · simp [hsplit, hpending] at h
      · simp only [hsplit, hpending, Option.some.injEq] at h
        exact Or.inr (Or.inl ⟨first, key, value, hline, rfl, rfl, h.symm⟩)
    · simp only [hsplit, Option.some.injEq] at h
      exact Or.inr (Or.inr ⟨first, second, hline, rfl, h.symm⟩)
    · simp [hsplit] at h
  · rw [if_neg hline] at h
    exact Or.inl ⟨hline, (Option.some.inj h).symm⟩

theorem readLoop_eq_iff (delimeter : Bytes) (st : ReadState) (bufs : List Bytes)
    (map : ContentMap) :
    readLoop delimeter st bufs = some (0, map) ↔
      (∀ buf ∈ bufs, cstr buf ≠ []) ∧
        ∃ r, (bufs.map fun buf => stripNewline (cstr buf)).foldlM (readEntry delimeter)
          st.reading = some r ∧ r.map = map := by
  induction bufs generalizing st with
  | nil => simp [readLoop, ReadState.reading]
  | cons buf bufs ih =>
      rw [List.map_cons, List.foldlM_cons, List.forall_mem_cons, readLoop, lineOf,
        ← readLine_reading]
      by_cases hbuf : cstr buf = []
      · simp [hbuf]
      · cases hnext : readLine delimeter st (stripNewline (cstr buf)) with
        | none => simp [hbuf, hnext]
        | some next => simpa [hbuf, hnext] using ih next

/-! ### Lines -/

theorem cstr_concat_newline (line : Bytes) :
    cstr (line ++ [newline]) = if 0 ∈ line then cstr line else line ++ [newline] := by
  by_cases hzero : 0 ∈ line
  · rw [if_pos hzero, cstr, cstr, List.takeWhile_append]
    have hlength : (line.takeWhile (· ≠ 0)).length ≠ line.length := by
      intro hlength
      have hall := List.takeWhile_eq_self_iff.mp
        ((List.takeWhile_prefix _).eq_of_length hlength) 0 hzero
      simp at hall
    rw [if_neg hlength]
  · rw [if_neg hzero, cstr_eq_self_iff]
    simp [hzero, newline]

theorem newline_not_mem_cstr {line : Bytes} (hsingle : newline ∉ line) : newline ∉ cstr line :=
  fun hmem => hsingle ((List.takeWhile_prefix _).subset hmem)

theorem stripNewline_of_not_mem {s : Bytes} (hsingle : newline ∉ s) : stripNewline s = s :=
  if_neg fun hlast => hsingle (List.mem_of_getLast? hlast)

theorem stripNewline_concat (s : Bytes) : stripNewline (s ++ [newline]) = s := by
  simp [stripNewline]

/-- The reader takes a line of the file up to a zero byte. -/
theorem stripNewline_cstr_concat {line : Bytes} (hsingle : newline ∉ line) :
    stripNewline (cstr (line ++ [newline])) = cstr line := by
  rw [cstr_concat_newline]
  by_cases hzero : 0 ∈ line
  · rw [if_pos hzero, stripNewline_of_not_mem (newline_not_mem_cstr hsingle)]
  · rw [if_neg hzero, stripNewline_concat, (cstr_eq_self_iff line).mpr hzero]

theorem cstr_eq_nil_iff (s : Bytes) : cstr s = [] ↔ s = [] ∨ s.head? = some 0 := by
  cases s with
  | nil => simp [cstr]
  | cons c s =>
      by_cases hc : c = 0 <;> simp [cstr, hc]

theorem readEntry_nil (delimeter : Bytes) (r : Reading) :
    readEntry delimeter r [] = some { r with pending := none } :=
  if_neg fun hcarries => hcarries.1 rfl

/-- The pieces of a file with short lines are its lines. -/
theorem pieceLines_fileOf {lines : List Bytes} {last : Bytes}
    (hlines : ∀ line ∈ lines, ShortLine line) (hlast : ShortLine last) :
    pieceLines (fileOf lines last) =
      lines.map cstr ++ if last = [] then [] else [cstr last] := by
  have htexts : (lines.map fun line => line ++ [newline]).map (fun buf => stripNewline (cstr buf))
      = lines.map cstr := by
    rw [List.map_map]
    exact List.map_congr_left fun line hline => stripNewline_cstr_concat (hlines line hline).single
  rw [pieceLines, pieces_fileOf hlines hlast, List.map_append, htexts]
  by_cases hempty : last = []
  · rw [if_pos hempty, if_pos hempty, List.map_nil]
  · rw [if_neg hempty, if_neg hempty, List.map_singleton,
      stripNewline_of_not_mem (newline_not_mem_cstr hlast.single)]

/-- Such a file is well formed just when its pieces are. -/
theorem wellFormed_pieceLines_iff {content : Bytes}
    (hshort : ∀ line ∈ content.splitOn newline, line.length < maxLineSize - 1)
    (delimeter : Bytes) :
    WellFormed delimeter (pieceLines content) ↔ WellFormed delimeter (fileLines content) := by
  obtain ⟨lines, last, rfl, hlines, hlast⟩ := exists_fileOf hshort
  rw [pieceLines_fileOf hlines hlast, fileLines, fileOf_splitOn hlines hlast, List.map_append,
    List.map_singleton]
  by_cases hempty : last = []
  · rw [if_pos hempty, hempty, List.append_nil]
    constructor
    · intro h before line after hsplit hcarries
      -- the empty line behind the last newline carries nothing
      rcases List.eq_nil_or_concat after with rfl | ⟨more, final, rfl⟩
      · have hline := (List.append_inj' hsplit rfl).2
        obtain ⟨rfl, -⟩ := List.cons.inj hline
        exact absurd rfl hcarries.1
      · refine h before line more ?_ hcarries
        rw [List.concat_eq_append, ← List.cons_append, ← List.append_assoc] at hsplit
        exact (List.append_inj' hsplit rfl).1
    · intro h before line after hsplit
      exact h before line (after ++ [[]]) (by simp [hsplit, cstr])
  · rw [if_neg hempty]

/-- The reader of a file with short lines takes the lines one by one. -/
theorem readConfigFile_fileOf_iff {delimeter last : Bytes} {lines : List Bytes}
    (hlines : ∀ line ∈ lines, ShortLine line) (hlast : ShortLine last) (map : ContentMap) :
    readConfigFile delimeter (fileOf lines last) (fun _ => none) = some (0, map) ↔
      (∀ line ∈ lines ++ [last], line.head? ≠ some 0) ∧
        ∃ r, ((lines ++ [last]).map cstr).foldlM (readEntry delimeter) .empty = some r ∧
          r.map = map := by
  have hheads : (∀ buf ∈ lines.map (fun line => line ++ [newline]), cstr buf ≠ []) ↔
      ∀ line ∈ lines, line.head? ≠ some 0 := by
    rw [List.forall_mem_map]
    refine forall₂_congr fun line _ => not_congr ?_
    rw [cstr_eq_nil_iff]
    cases line <;> simp [newline]
  have htexts : ((pieces (fileOf lines last)).map fun buf => stripNewline (cstr buf)) = _ :=
    pieceLines_fileOf hlines hlast
  rw [readConfigFile, readLoop_eq_iff, htexts, pieces_fileOf hlines hlast,
    List.forall_mem_append, hheads, List.forall_mem_append, List.forall_mem_singleton,
    List.map_append]
  by_cases hempty : last = []
  · have hend : ∀ start : Reading, (∃ r, (lines.map cstr ++ [[]]).foldlM (readEntry delimeter) start
        = some r ∧ r.map = map) ↔
          ∃ r, (lines.map cstr).foldlM (readEntry delimeter) start = some r ∧ r.map = map := by
      intro start
      rw [List.foldlM_append]
      cases (lines.map cstr).foldlM (readEntry delimeter) start with
      | none => simp
      | some r => simp [readEntry_nil]
    rw [if_pos hempty, if_pos hempty, hempty, List.append_nil]
    exact and_congr (by simp) (hend .empty).symm
  · have hhead : (∀ buf ∈ [last], cstr buf ≠ []) ↔ last.head? ≠ some 0 := by
      rw [List.forall_mem_singleton, ne_eq, cstr_eq_nil_iff, or_iff_right hempty]
    rw [if_neg hempty, if_neg hempty, hhead]
    rfl

/-! ### Items -/

/-- An item as `tmq_config_sync` writes it, without the newline. -/
def itemLine (delimeter : Bytes) (item : Bytes × Bytes) : Bytes :=
  item.1 ++ delimeter ++ item.2

/-- A key or a value: not empty, no blanks at its ends, and no byte that means
something in the file. -/
def Clean (delimeter s : Bytes) : Prop :=
  s ≠ [] ∧ (∀ c ∈ s, c ≠ 0 ∧ c ≠ newline ∧ c ≠ hash ∧ c ∉ delimeter) ∧
    s.head?.any isBlank = false ∧ s.getLast?.any isBlank = false

instance (delimeter s : Bytes) : Decidable (Clean delimeter s) :=
  inferInstanceAs (Decidable (_ ∧ _ ∧ _ ∧ _))

def CleanItem (delimeter : Bytes) (item : Bytes × Bytes) : Prop :=
  Clean delimeter item.1 ∧ Clean delimeter item.2 ∧
    (itemLine delimeter item).length < maxLineSize - 1

instance (delimeter : Bytes) (item : Bytes × Bytes) : Decidable (CleanItem delimeter item) :=
  inferInstanceAs (Decidable (_ ∧ _ ∧ _))

theorem strtok_append_of_not_mem {delimeters s : Bytes} (hplain : ∀ c ∈ s, c ∉ delimeters)
    (part rest : Bytes) :
    strtok delimeters part (s ++ rest) = strtok delimeters (part ++ s) rest := by
  induction s generalizing part with
  | nil => rw [List.nil_append, List.append_nil]
  | cons c s ih =>
      obtain ⟨hc, hs⟩ := List.forall_mem_cons.mp hplain
      rw [List.cons_append, strtok, if_neg hc, ih hs, List.append_assoc]
      rfl

theorem strtok_append_of_mem {delimeters s : Bytes} (hdelims : ∀ c ∈ s, c ∈ delimeters)
    (rest : Bytes) : strtok delimeters [] (s ++ rest) = strtok delimeters [] rest := by
  induction s with
  | nil => rfl
  | cons c s ih =>
      obtain ⟨hc, hs⟩ := List.forall_mem_cons.mp hdelims
      rw [List.cons_append, strtok, if_pos hc, if_pos rfl, ih hs]

/-- The line of an item splits into its key and its value. -/
theorem tmqStrSplit_itemLine {delimeter : Bytes} (hdelimeter : delimeter ≠ [])
    {item : Bytes × Bytes} (hitem : CleanItem delimeter item) :
    tmqStrSplit (itemLine delimeter item) delimeter = [item.1, item.2] := by
  obtain ⟨key, value⟩ := item
  obtain ⟨⟨hkeyNe, hkey, -⟩, ⟨hvalueNe, hvalue, -⟩, -⟩ := hitem
  have hkeyPlain : ∀ c ∈ key, c ∉ delimeter := fun c hc => (hkey c hc).2.2.2
  have hvaluePlain : ∀ c ∈ value, c ∉ delimeter := fun c hc => (hvalue c hc).2.2.2
  obtain ⟨c, rest, hcons⟩ := List.exists_cons_of_ne_nil hdelimeter
  have hdelims : ∀ c ∈ rest, c ∈ delimeter := by
    intro c hc
    rw [hcons]
    exact List.mem_cons_of_mem _ hc
  have hend : strtok delimeter [] (value ++ []) = [value] := by
    rw [strtok_append_of_not_mem hvaluePlain, List.nil_append, strtok, if_neg hvalueNe]
  have hcut : strtok delimeter key (delimeter ++ value) = key :: strtok delimeter [] value := by
    have hmem : c ∈ delimeter := hcons ▸ List.mem_cons_self
    have hstep : strtok delimeter key (c :: (rest ++ value))
        = key :: strtok delimeter [] (rest ++ value) := by
      rw [strtok, if_pos hmem, if_neg hkeyNe]
    rw [strtok_append_of_mem hdelims] at hstep
    rw [← hstep, ← List.cons_append, ← hcons]
  rw [List.append_nil] at hend
  rw [tmqStrSplit, itemLine, List.append_assoc, strtok_append_of_not_mem hkeyPlain,
    List.nil_append, hcut, hend]

theorem dropWhile_isBlank {s : Bytes} (h : s.head?.any isBlank = false) :
    s.dropWhile isBlank = s := by
  cases s with
  | nil => rfl
  | cons c s => exact List.dropWhile_cons_of_neg (by simpa using h)

theorem Clean.tmqStrTrim_eq {delimeter s : Bytes} (h : Clean delimeter s) : tmqStrTrim s = s := by
  obtain ⟨-, -, hfirst, hlast⟩ := h
  rw [← List.head?_reverse] at hlast
  rw [tmqStrTrim, dropWhile_isBlank hfirst, dropWhile_isBlank hlast, List.reverse_reverse]

theorem Clean.cstr_eq {delimeter s : Bytes} (h : Clean delimeter s) : cstr s = s :=
  (cstr_eq_self_iff s).mpr fun hzero => (h.2.1 0 hzero).1 rfl

structure ProperDelimeter (delimeter : Bytes) : Prop where
  nonempty : delimeter ≠ []
  plain : ∀ c ∈ delimeter, c ≠ 0 ∧ c ≠ newline ∧ c ≠ hash
  short : delimeter.length ≤ maxDelimeterSize

theorem mem_itemLine {delimeter : Bytes} (hdelimeter : ProperDelimeter delimeter)
    {item : Bytes × Bytes} (hitem : CleanItem delimeter item) {c : UInt8}
    (hc : c ∈ itemLine delimeter item) : c ≠ 0 ∧ c ≠ newline ∧ c ≠ hash := by
  obtain ⟨hkey, hvalue, -⟩ := hitem
  rcases List.mem_append.mp hc with hc | hc
  · rcases List.mem_append.mp hc with hc | hc
    · obtain ⟨hzero, hnewline, hhash, -⟩ := hkey.2.1 c hc
      exact ⟨hzero, hnewline, hhash⟩
    · exact hdelimeter.plain c hc
  · obtain ⟨hzero, hnewline, hhash, -⟩ := hvalue.2.1 c hc
    exact ⟨hzero, hnewline, hhash⟩

theorem shortLine_itemLine {delimeter : Bytes} (hdelimeter : ProperDelimeter delimeter)
    {item : Bytes × Bytes} (hitem : CleanItem delimeter item) :
    ShortLine (itemLine delimeter item) :=
  ⟨fun hmem => (mem_itemLine hdelimeter hitem hmem).2.1 rfl, hitem.2.2⟩

theorem zero_not_mem_itemLine {delimeter : Bytes} (hdelimeter : ProperDelimeter delimeter)
    {item : Bytes × Bytes} (hitem : CleanItem delimeter item) : 0 ∉ itemLine delimeter item :=
  fun hmem => (mem_itemLine hdelimeter hitem hmem).1 rfl

/-- What `tmq_config_sync` writes for an item is read as that item. -/
theorem readEntry_itemLine {delimeter : Bytes} (hdelimeter : ProperDelimeter delimeter)
    {item : Bytes × Bytes} (hitem : CleanItem delimeter item) (r : Reading) :
    readEntry delimeter r (itemLine delimeter item) = some (r.put item.1 item.2) := by
  have hcarries : Carries (itemLine delimeter item) := by
    refine ⟨?_, fun hmem => (mem_itemLine hdelimeter hitem hmem).2.2 rfl⟩
    simp [itemLine, hitem.1.1]
  rw [readEntry, if_pos hcarries, tmqStrSplit_itemLine hdelimeter.nonempty hitem]
  simp only [hitem.1.tmqStrTrim_eq, hitem.2.1.tmqStrTrim_eq]

/-- A newline at the end of a line becomes part of its last token, unless a
delimiter stands before it. -/
theorem strtok_concat_newline {delimeters : Bytes} (hnewline : newline ∉ delimeters)
    {s : Bytes} (hlast : s.getLast?.any (fun c => decide (c ∈ delimeters)) = false) (part : Bytes)
    (hne : part ++ s ≠ []) :
    ∃ parts last, strtok delimeters part s = parts ++ [last] ∧
      strtok delimeters part (s ++ [newline]) = parts ++ [last ++ [newline]] := by
  induction s generalizing part with
  | nil =>
      rw [List.append_nil] at hne
      refine ⟨[], part, by rw [strtok, if_neg hne]; rfl, ?_⟩
      rw [List.nil_append, strtok, if_neg hnewline, strtok, if_neg (by simp)]
      rfl
  | cons c s ih =>
      by_cases hc : c ∈ delimeters
      · -- a delimiter is not the last byte
        have hs : s ≠ [] := by
          rintro rfl
          simp [hc] at hlast
        rw [List.getLast?_cons_of_ne_nil hs] at hlast
        obtain ⟨parts, last, hsplit, hsplit'⟩ := ih hlast [] hs
        rw [List.cons_append, strtok, if_pos hc, strtok, if_pos hc, hsplit, hsplit']
        by_cases hpart : part = []
        · rw [if_pos hpart, if_pos hpart]
          exact ⟨parts, last, rfl, rfl⟩
        · rw [if_neg hpart, if_neg hpart]
          exact ⟨part :: parts, last, rfl, rfl⟩
      · have hrest : s.getLast?.any (fun c => decide (c ∈ delimeters)) = false := by
          cases s with
          | nil => rfl
          | cons c' s => rwa [List.getLast?_cons_of_ne_nil (List.cons_ne_nil c' s)] at hlast
        rw [List.cons_append, strtok, if_neg hc, strtok, if_neg hc]
        exact ih hrest (part ++ [c]) (by simp)

end TinyMqtt.ConfigFile
