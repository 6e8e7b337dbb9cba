import TinyMqtt.Lib.FiniteMap
import TinyMqtt.Rule.Parser

/-!
Reading a configuration file (`base/mqtt_config.c`). The file is read in pieces
of 1023 bytes at most, each up to the end of its line; a piece is then treated
as a line. A file and a string that have been released are gone, and a function
that needs one of them has no result.
-/

namespace TinyMqtt.ConfigFile

open RuleParser (isBlank)

/-! ### Strings -/

/-- The loop of `strtok_r`: `part` is the token so far. -/
def strtok (delimeters part : Bytes) : Bytes → List Bytes
  | [] => if part = [] then [] else [part]
  | c :: s =>
      if c ∈ delimeters then
        if part = [] then strtok delimeters [] s else part :: strtok delimeters [] s
      else strtok delimeters (part ++ [c]) s

def tmqStrSplit (s delimeters : Bytes) : List Bytes := strtok delimeters [] s

def tmqStrTrim (s : Bytes) : Bytes :=
  ((s.dropWhile isBlank).reverse.dropWhile isBlank).reverse

/-! ### The file -/

def maxLineSize : Nat := 1024

def maxDelimeterSize : Nat := 10

def newline : UInt8 := 10

def hash : UInt8 := 35

/-- `fgets` with room for `n` bytes before the terminator: what it stores, and
what it leaves in the file. -/
def fgets : Nat → Bytes → Bytes × Bytes
  | 0, rest => ([], rest)
  | _ + 1, [] => ([], [])
  | n + 1, c :: rest =>
      if c = newline then ([c], rest)
      else
        let (buf, left) := fgets n rest
        (c :: buf, left)

/-- The results of `fgets` up to the end of the file. -/
def fgetsLoop : Nat → Bytes → List Bytes
  | 0, _ => []
  | _ + 1, [] => []
  | fuel + 1, c :: rest =>
      let (buf, left) := fgets (maxLineSize - 1) (c :: rest)
      buf :: fgetsLoop fuel left

def pieces (content : Bytes) : List Bytes := fgetsLoop content.length content

/-! ### The map -/

structure ConfigValue where
  value : Bytes
  modified : Bool
  deleted : Bool
  deriving DecidableEq, Repr

abbrev ContentMap := Bytes → Option ConfigValue

/-- The local variables of `read_config_file`. -/
structure ReadState where
  cfg : ContentMap
  parsingValue : Bool
  key : Bytes
  value : Bytes

/-- The map with the value that is being parsed. -/
def ReadState.put (st : ReadState) : ContentMap :=
  if st.parsingValue then FiniteMap.set st.cfg st.key ⟨st.value, false, false⟩ else st.cfg

def stripNewline (s : Bytes) : Bytes := if s.getLast? = some newline then s.dropLast else s

/-- The line in the buffer. The byte before the terminator is looked at without
a check that there is one. -/
def lineOf (buf : Bytes) : Option Bytes :=
  if cstr buf = [] then none else some (stripNewline (cstr buf))

/-- The body of the loop of `read_config_file`; nothing for a malformed line. -/
def readLine (delimeter : Bytes) (st : ReadState) (line : Bytes) : Option ReadState :=
  if line = [] ∨ hash ∈ line then some { st with cfg := st.put, parsingValue := false }
  else
    match tmqStrSplit line delimeter with
    | [part] =>
        if st.parsingValue then some { st with value := tmqStrTrim (st.value ++ part) } else none
    | [key, value] =>
        some { cfg := st.put, parsingValue := true, key := tmqStrTrim key,
               value := tmqStrTrim value }
    | _ => none

def readLoop (delimeter : Bytes) (st : ReadState) : List Bytes → Option (Int × ContentMap)
  | [] => some (0, st.put)
  | buf :: bufs => do
      let line ← lineOf buf
      match readLine delimeter st line with
      | none => some (-1, st.cfg)
      | some next => readLoop delimeter next bufs

def readConfigFile (delimeter content : Bytes) (cfg : ContentMap) : Option (Int × ContentMap) :=
  readLoop delimeter { cfg := cfg, parsingValue := false, key := [], value := [] } (pieces content)

/-! ### The configuration -/

/-- `tmq_config_t`: the open file by its content, and what has been allocated. -/
structure TmqConfig where
  fp : Option Bytes
  mod : Bool
  cfg : Option ContentMap
  newItems : Option (List (Bytes × Bytes))
  delimeter : Bytes
  filename : Option Bytes

def TmqConfig.Live (conf : TmqConfig) : Prop :=
  conf.fp.isSome ∧ conf.cfg.isSome ∧ conf.newItems.isSome ∧ conf.filename.isSome

/-- `tmq_config_init` with what `fopen` finds under the name. -/
def tmqConfigInit (cfg : Option TmqConfig) (filename : Option Bytes) (delimeter : Bytes)
    (fopen : Bytes → Option Bytes) : Option (Int × Option TmqConfig) :=
  match cfg, filename with
  | some cfg, some filename =>
      if maxDelimeterSize < (cstr delimeter).length then some (-1, some cfg)
      else
        match fopen filename with
        | none => some (-1, some { cfg with fp := none })
        | some content => do
            let (err, map) ← readConfigFile (cstr delimeter) content fun _ => none
            let conf : TmqConfig :=
              { fp := some content, mod := false, cfg := some map, newItems := some [],
                delimeter := cstr delimeter, filename := some (tmqStrNew filename) }
            some (0, some (if err < 0 then
              { conf with fp := none, cfg := none, newItems := none, filename := none } else conf))
  | cfg, _ => some (-1, cfg)

def TmqConfig.tmqConfigGet (conf : TmqConfig) (key : Bytes) : Option (Option Bytes) := do
  let cfg ← conf.cfg
  some (((cfg (cstr key)).filter fun it => !it.deleted).map fun it => tmqStrNew it.value)

/-! ### Well-formed files -/

def fileLines (content : Bytes) : List Bytes := (content.splitOn newline).map cstr

def pieceLines (content : Bytes) : List Bytes :=
  (pieces content).map fun buf => stripNewline (cstr buf)

/-- A line that is neither empty nor a comment. -/
def Carries (line : Bytes) : Prop := line ≠ [] ∧ hash ∉ line

instance (line : Bytes) : Decidable (Carries line) := inferInstanceAs (Decidable (_ ∧ _))

/-- A line splits into a key and a value, or goes on with the value of the line
before it. -/
def FitsAfter (delimeter : Bytes) (continuing : Prop) (line : Bytes) : Prop :=
  (tmqStrSplit line delimeter).length = 2 ∨
    (tmqStrSplit line delimeter).length = 1 ∧ continuing

instance (delimeter : Bytes) (continuing : Prop) [Decidable continuing] (line : Bytes) :
    Decidable (FitsAfter delimeter continuing line) :=
  inferInstanceAs (Decidable (_ ∨ _ ∧ _))

def WellFormed (delimeter : Bytes) (lines : List Bytes) : Prop :=
  ∀ before line after, lines = before ++ line :: after → Carries line →
    FitsAfter delimeter (∃ last, before.getLast? = some last ∧ Carries last) line

def WellFormedAfter (delimeter : Bytes) (continuing : Prop) (lines : List Bytes) : Prop :=
  ∀ before line after, lines = before ++ line :: after → Carries line →
    FitsAfter delimeter
      (before = [] ∧ continuing ∨ ∃ last, before.getLast? = some last ∧ Carries last) line

theorem wellFormedAfter_false (delimeter : Bytes) (lines : List Bytes) :
    WellFormedAfter delimeter False lines ↔ WellFormed delimeter lines := by
  simp [WellFormedAfter, WellFormed]

theorem wellFormedAfter_cons (delimeter : Bytes) (continuing : Prop) (line : Bytes)
    (lines : List Bytes) :
    WellFormedAfter delimeter continuing (line :: lines) ↔
      (Carries line → FitsAfter delimeter continuing line) ∧
        WellFormedAfter delimeter (Carries line) lines := by
  constructor
  · intro h
    constructor
    · intro hline
      simpa using h [] line lines rfl hline
    · intro before next after hlines hnext
      have hfits := h (line :: before) next after (congrArg (line :: ·) hlines) hnext
      cases before with
      | nil => simpa using hfits
      | cons first before => simpa using hfits
  · rintro ⟨hfirst, hrest⟩ before next after hlines hnext
    cases before with
    | nil =>
        obtain ⟨rfl, rfl⟩ := List.cons.inj hlines
        simpa using hfirst hnext
    | cons first before =>
        obtain ⟨rfl, htail⟩ := List.cons.inj hlines
        have hfits := hrest before next after htail hnext
        cases before with
        | nil => simpa using hfits
        | cons second before => simpa using hfits

theorem wellFormedAfter_nil (delimeter : Bytes) (continuing : Prop) :
    WellFormedAfter delimeter continuing [] := by
  intro before line after hlines
  cases before <;> cases hlines

instance WellFormedAfter.decidable (delimeter : Bytes) :
    ∀ (continuing : Prop) [Decidable continuing] (lines : List Bytes),
      Decidable (WellFormedAfter delimeter continuing lines)
  | continuing, _, [] => isTrue (wellFormedAfter_nil delimeter continuing)
  | continuing, _, line :: lines =>
      have := WellFormedAfter.decidable delimeter (Carries line) lines
      decidable_of_iff _ (wellFormedAfter_cons delimeter continuing line lines).symm

instance (delimeter : Bytes) (lines : List Bytes) : Decidable (WellFormed delimeter lines) :=
  decidable_of_iff _ (wellFormedAfter_false delimeter lines)

/-- A line is taken just when it fits, and a value is being parsed after it just
when it carries something. -/
theorem readLine_isSome_iff (delimeter : Bytes) (st : ReadState) (line : Bytes) :
    (∃ next, readLine delimeter st line = some next) ↔
      (Carries line → FitsAfter delimeter (st.parsingValue = true) line) := by
  unfold readLine FitsAfter
  by_cases hline : line = [] ∨ hash ∈ line
  · have hnot : ¬Carries line := by
      rintro ⟨hne, hhash⟩
      exact hline.elim hne hhash
    simp [hline, hnot]
  · have hcarries : Carries line := not_or.mp hline
    rw [if_neg hline]
    rcases tmqStrSplit line delimeter with _ | ⟨first, _ | ⟨second, _ | ⟨third, more⟩⟩⟩
    · simp [hcarries]
    · simp [hcarries]
    · simp [hcarries]
    · simp [hcarries]

theorem readLine_parsingValue {delimeter : Bytes} {st next : ReadState} {line : Bytes}
    (h : readLine delimeter st line = some next) :
    next.parsingValue = true ↔ Carries line := by
  unfold readLine at h
  by_cases hline : line = [] ∨ hash ∈ line
  · rw [if_pos hline] at h
    obtain rfl := Option.some.inj h
    have hnot : ¬Carries line := by
      rintro ⟨hne, hhash⟩
      exact hline.elim hne hhash
    simp [hnot]
  · have hcarries : Carries line := not_or.mp hline
    rw [if_neg hline] at h
    rcases hsplit : tmqStrSplit line delimeter with _ | ⟨first, _ | ⟨second, _ | ⟨third, more⟩⟩⟩
    · simp [hsplit] at h
    · simp only [hsplit] at h
      obtain ⟨hparsing, hnext⟩ := Option.ite_none_right_eq_some.mp h
      obtain rfl := Option.some.inj hnext
      simp [hparsing, hcarries]
    · simp only [hsplit] at h
      obtain rfl := Option.some.inj h
      simp [hcarries]
    · simp [hsplit] at h

/-- The reader gets through the pieces just when none of them begins with a zero
byte and their lines are well formed. -/
theorem readLoop_accepts_iff (delimeter : Bytes) (st : ReadState) (bufs : List Bytes) :
    (∃ map, readLoop delimeter st bufs = some (0, map)) ↔
      (∀ buf ∈ bufs, cstr buf ≠ []) ∧
        WellFormedAfter delimeter (st.parsingValue = true)
          (bufs.map fun buf => stripNewline (cstr buf)) := by
  induction bufs generalizing st with
  | nil => simp [readLoop, wellFormedAfter_nil]
  | cons buf bufs ih =>
      rw [List.map_cons, wellFormedAfter_cons, List.forall_mem_cons, readLoop, lineOf]
      by_cases hbuf : cstr buf = []
      · simp [hbuf]
      · rw [if_neg hbuf, ← readLine_isSome_iff]
        cases hnext : readLine delimeter st (stripNewline (cstr buf)) with
        | none => simp [hnext]
        | some next =>
            have hcarries := propext (readLine_parsingValue hnext)
            rw [← hcarries]
            simpa [hnext, hbuf] using ih next

theorem readLoop_err {delimeter : Bytes} {st : ReadState} {bufs : List Bytes} {err : Int}
    {map : ContentMap} (h : readLoop delimeter st bufs = some (err, map)) :
    err = 0 ∨ err = -1 := by
  induction bufs generalizing st with
  | nil =>
      obtain ⟨rfl, -⟩ := Prod.mk.inj (Option.some.inj h)
      exact Or.inl rfl
  | cons buf bufs ih =>
      obtain ⟨line, -, hline⟩ := Option.bind_eq_some_iff.mp h
      cases hnext : readLine delimeter st line with
      | none =>
          simp only [hnext] at hline
          obtain ⟨rfl, -⟩ := Prod.mk.inj (Option.some.inj hline)
          exact Or.inr rfl
      | some next =>
          simp only [hnext] at hline
          exact ih hline

theorem readConfigFile_accepts_iff (delimeter content : Bytes) (cfg : ContentMap) :
    (∃ map, readConfigFile delimeter content cfg = some (0, map)) ↔
      (∀ buf ∈ pieces content, cstr buf ≠ []) ∧ WellFormed delimeter (pieceLines content) := by
  rw [readConfigFile, readLoop_accepts_iff, ← wellFormedAfter_false]
  simp [pieceLines]

/-! ### Failure -/

/-- The load of a file that could be opened reports whether its lines are well
formed, and what it reports as loaded can be used. -/
def ReportsFailure (cfg : TmqConfig) (filename delimeter : Bytes)
    (fopen : Bytes → Option Bytes) (content : Bytes) : Prop :=
  ∃ ret conf, tmqConfigInit (some cfg) (some filename) delimeter fopen = some (ret, some conf) ∧
    (ret = 0 ↔ WellFormed (cstr delimeter) (fileLines content)) ∧
    (ret = 0 → conf.Live ∧ ∀ key, (conf.tmqConfigGet key).isSome) ∧
    (¬WellFormed (cstr delimeter) (fileLines content) → ret < 0)

/-- The load always returns 0, so it is right just when there is nothing to
report: the lines are well formed, and so are the pieces that they are read in. -/
theorem tmqConfigInit_iff (cfg : TmqConfig) (filename delimeter : Bytes)
    (fopen : Bytes → Option Bytes) (content : Bytes)
    (hshort : (cstr delimeter).length ≤ maxDelimeterSize)
    (hopen : fopen filename = some content) :
    ReportsFailure cfg filename delimeter fopen content ↔
      WellFormed (cstr delimeter) (fileLines content) ∧
        WellFormed (cstr delimeter) (pieceLines content) ∧
        ∀ buf ∈ pieces content, cstr buf ≠ [] := by
  unfold ReportsFailure tmqConfigInit
  simp only [if_neg (not_lt.mpr hshort), hopen]
  constructor
  · rintro ⟨ret, conf, hinit, hiff, hlive, -⟩
    obtain ⟨⟨err, map⟩, hread, hret⟩ := Option.bind_eq_some_iff.mp hinit
    obtain ⟨rfl, hconf⟩ := Prod.mk.inj (Option.some.inj hret)
    obtain rfl := Option.some.inj hconf
    refine ⟨hiff.mp rfl, ?_⟩
    have hloaded := (hlive rfl).1
    have hzero : err = 0 := by
      rcases readLoop_err hread with rfl | rfl
      · rfl
      · simp [TmqConfig.Live] at hloaded
    subst hzero
    exact ((readConfigFile_accepts_iff _ _ _).mp ⟨map, hread⟩).symm
  · rintro ⟨hlines, hpieces, hbufs⟩
    obtain ⟨map, hread⟩ :=
      (readConfigFile_accepts_iff (cstr delimeter) content fun _ => none).mpr ⟨hbufs, hpieces⟩
    refine ⟨0, _, by rw [hread]; rfl, iff_of_true rfl hlines, ?_, fun hnot => absurd hlines hnot⟩
    intro _
    simp [TmqConfig.Live, TmqConfig.tmqConfigGet]

/-- The variable of a caller before the load. -/
def TmqConfig.unloaded : TmqConfig :=
  { fp := none, mod := false, cfg := none, newItems := none, delimeter := [], filename := none }

/-- `key=1`, a comment, and `k=2` with a second line of its value. -/
theorem reportsFailure_entries :
    ReportsFailure .unloaded [99] [61]
      (fun _ => some [107, 101, 121, 61, 49, 10, 35, 10, 107, 61, 50, 10, 51])
      [107, 101, 121, 61, 49, 10, 35, 10, 107, 61, 50, 10, 51] :=
  (tmqConfigInit_iff .unloaded [99] [61] _ _ (by decide) (by rfl)).mpr
    ⟨by decide, by decide, by decide⟩

/-- A file with the one line `a`. -/
theorem not_reportsFailure_word :
    ¬ReportsFailure .unloaded [99] [61] (fun _ => some [97, 10]) [97, 10] := by
  rintro ⟨ret, conf, hinit, hiff, -, -⟩
  have hzero : ret = 0 := (Prod.mk.inj (Option.some.inj hinit)).1.symm
  exact absurd (hiff.mp hzero) (by decide)

end TinyMqtt.ConfigFile
