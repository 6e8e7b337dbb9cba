import TinyMqtt.Base.Str

/-!
Topic names and topic filters as lists of levels. The broker cuts a topic at
every `/`, keeping empty levels at both ends; the same loop stands in
`tmq_topic_split` and in `add_topic_or_find`. Topics are C strings, so a topic
ends at its first zero byte.
-/

namespace TinyMqtt

def levelSeparator : UInt8 := 47

def singleWildcard : Bytes := [43]

def multiWildcard : Bytes := [35]

def isWildcard (level : Bytes) : Bool := level = singleWildcard ∨ level = multiWildcard

/-- The loop of `tmq_topic_split` with the bytes of the current level read so
far. A separator at the end of the string is followed by one empty level. -/
def splitLevels (level : Bytes) : Bytes → List Bytes
  | [] => [level]
  | c :: rest =>
      if c = levelSeparator then level :: splitLevels [] rest
      else splitLevels (level ++ [c]) rest

def tmqTopicSplit (str : Bytes) : List Bytes := splitLevels [] (cstr str)

def joinLevels : List Bytes → Bytes
  | [] => []
  | [level] => level
  | level :: levels => level ++ levelSeparator :: joinLevels levels

theorem splitLevels_ne_nil (level str : Bytes) : splitLevels level str ≠ [] := by
  induction str generalizing level with
  | nil => simp [splitLevels]
  | cons c rest ih =>
      rw [splitLevels]
      split
      · simp
      · exact ih _

theorem joinLevels_splitLevels (level str : Bytes) :
    joinLevels (splitLevels level str) = level ++ str := by
  induction str generalizing level with
  | nil => simp [splitLevels, joinLevels]
  | cons c rest ih =>
      rw [splitLevels]
      split
      · rename_i hsep
        obtain ⟨first, others, hsplit⟩ :=
          List.exists_cons_of_ne_nil (splitLevels_ne_nil [] rest)
        have hrest := ih []
        rw [hsplit, List.nil_append] at hrest
        rw [hsplit, joinLevels, hrest, hsep]
        simp
      · rw [ih, List.append_assoc, List.singleton_append]

theorem tmqTopicSplit_ne_nil (str : Bytes) : tmqTopicSplit str ≠ [] :=
  splitLevels_ne_nil [] (cstr str)

theorem joinLevels_tmqTopicSplit (str : Bytes) : joinLevels (tmqTopicSplit str) = cstr str :=
  joinLevels_splitLevels [] (cstr str)

/-- Two C strings with the same levels are the same. -/
theorem tmqTopicSplit_inj {first second : Bytes} :
    tmqTopicSplit first = tmqTopicSplit second ↔ cstr first = cstr second := by
  constructor
  · intro hsame
    rw [← joinLevels_tmqTopicSplit first, hsame, joinLevels_tmqTopicSplit]
  · intro hsame
    rw [tmqTopicSplit, tmqTopicSplit, hsame]

/-- MQTT filter matching: `+` stands for exactly one level, `#` for any number
of levels, none included. -/
def filterMatches : List Bytes → List Bytes → Bool
  | [], [] => true
  | [], _ :: _ => false
  | level :: filter, topic =>
      if level = multiWildcard ∧ filter = [] then true
      else match topic with
        | [] => false
        | name :: topic => (level = singleWildcard ∨ level = name) ∧ filterMatches filter topic

/-- The level `#` stands last if it stands in the filter at all. -/
def ValidFilter (filter : List Bytes) : Prop := multiWildcard ∉ filter.dropLast

def WildcardFree (topic : List Bytes) : Prop := ∀ level ∈ topic, isWildcard level = false

instance (filter : List Bytes) : Decidable (ValidFilter filter) :=
  inferInstanceAs (Decidable (multiWildcard ∉ filter.dropLast))

instance (topic : List Bytes) : Decidable (WildcardFree topic) :=
  inferInstanceAs (Decidable (∀ level ∈ topic, isWildcard level = false))

theorem filterMatches_nil_iff (path : List Bytes) : filterMatches [] path = true ↔ path = [] := by
  cases path <;> simp [filterMatches]

theorem filterMatches_literal {level : Bytes} (hlevel : level ≠ multiWildcard)
    (levels path : List Bytes) :
    filterMatches (level :: levels) path = true ↔ ∃ name rest, path = name :: rest ∧
      (level = singleWildcard ∨ level = name) ∧ filterMatches levels rest = true := by
  cases path <;> simp [filterMatches, hlevel]

theorem ValidFilter.tail {level : Bytes} {levels : List Bytes}
    (hvalid : ValidFilter (level :: levels)) : ValidFilter levels := by
  intro hmem
  apply hvalid
  cases levels with
  | nil => exact (List.not_mem_nil hmem).elim
  | cons next levels =>
      rw [List.dropLast_cons_of_ne_nil (List.cons_ne_nil next levels)]
      exact List.mem_cons_of_mem level hmem

theorem ValidFilter.multi_last {levels : List Bytes}
    (hvalid : ValidFilter (multiWildcard :: levels)) : levels = [] := by
  cases levels with
  | nil => rfl
  | cons next levels =>
      refine (hvalid ?_).elim
      rw [List.dropLast_cons_of_ne_nil (List.cons_ne_nil next levels)]
      exact List.mem_cons_self

end TinyMqtt
