import TinyMqtt.Rule.Writing

/-!
The texts of rules and how the parser reads them: columns up to `from`, the
event source, and what follows it.
-/

namespace TinyMqtt

open ShuntingYard (Tree)

namespace RuleParser

/-! ### Where a scan ends -/

/-- A scan over bytes with a property ends before the text. -/
def EndsAt (p : UInt8 → Bool) (rest : Bytes) : Prop := ∀ c ∈ rest.head?, p c = false

section Scan

variable {p : UInt8 → Bool} {scanned rest : Bytes}

theorem takeWhile_endsAt (hscanned : ∀ c ∈ scanned, p c = true) (hrest : EndsAt p rest) :
    (scanned ++ rest).takeWhile p = scanned := by
  rw [List.takeWhile_append_of_pos hscanned]
  match rest with
  | [] => simp
  | c :: _ => simp [hrest c rfl]

theorem dropWhile_endsAt (hscanned : ∀ c ∈ scanned, p c = true) (hrest : EndsAt p rest) :
    (scanned ++ rest).dropWhile p = rest := by
  rw [List.dropWhile_append_of_pos hscanned]
  match rest with
  | [] => rfl
  | c :: _ => exact List.dropWhile_cons_of_neg (by simp [hrest c rfl])

end Scan

theorem skipBlank_endsAt {blanks rest : Bytes} (hblanks : Blanks blanks)
    (hrest : EndsAt isBlank rest) : skipBlank (blanks ++ rest) = rest :=
  dropWhile_endsAt hblanks hrest

/-- A nonempty text of bytes that are no blanks. -/
theorem endsAt_append {p q : UInt8 → Bool} {s : Bytes} (hne : s ≠ [])
    (hs : ∀ c ∈ s, q c = true) (hpq : ∀ c, q c = true → p c = false) (rest : Bytes) :
    EndsAt p (s ++ rest) := by
  obtain ⟨c, tail, rfl⟩ := List.exists_cons_of_ne_nil hne
  intro d hd
  obtain rfl : c = d := Option.some.inj hd
  exact hpq c (hs c List.mem_cons_self)

/-- A scan that blanks end. -/
theorem endsAt_blanks {p : UInt8 → Bool} (hp : ∀ c, isBlank c = true → p c = false)
    {blanks : Bytes} (hne : blanks ≠ []) (hblanks : Blanks blanks) (rest : Bytes) :
    EndsAt p (blanks ++ rest) :=
  endsAt_append hne hblanks hp rest

/-! ### Words -/

/-- A word of small letters, written in letters of any case. -/
def Spells (word text : Bytes) : Prop := text.map toLower = word

instance (word text : Bytes) : Decidable (Spells word text) :=
  inferInstanceAs (Decidable (text.map toLower = word))

instance (s : Bytes) : Decidable (Blanks s) := inferInstanceAs (Decidable (∀ c ∈ s, _))

theorem startsWith_of_spells {word text : Bytes} (h : Spells word text) (rest : Bytes) :
    startsWith word (text ++ rest) = true := by
  have hlength : word.length = text.length := by
    rw [← h, List.length_map]
  rw [startsWith, hlength, List.take_left, decide_eq_true_eq]
  exact h

theorem drop_of_spells {word text : Bytes} (h : Spells word text) (rest : Bytes) :
    (text ++ rest).drop word.length = rest := by
  rw [← h, List.length_map, List.drop_left]

/-- The first letter decides. -/
theorem startsWith_of_head {c d : UInt8} {word ptr : Bytes} (hhead : ptr.head? = some c)
    (hne : toLower c ≠ d) : startsWith (d :: word) ptr = false := by
  obtain ⟨tail, rfl⟩ : ∃ tail, ptr = c :: tail := by
    cases ptr with
    | nil => cases hhead
    | cons c' tail =>
        obtain rfl := Option.some.inj hhead
        exact ⟨tail, rfl⟩
  rw [startsWith, decide_eq_false_iff_not]
  intro heq
  exact hne (List.cons_eq_cons.mp heq).1

theorem Spells.head {d : UInt8} {word text : Bytes} (h : Spells (d :: word) text) :
    ∃ c rest, text = c :: rest ∧ toLower c = d := by
  cases text with
  | nil => cases h
  | cons c rest => exact ⟨c, rest, rfl, (List.cons_eq_cons.mp h).1⟩

/-- A letter is neither a blank nor a comma. -/
theorem isColumnByte_of_toLower {c d : UInt8} (h : toLower c = d) (hd : isSmallLetter d = true) :
    isColumnByte c = true ∧ isBlank c = false := by
  have hall : ∀ c : UInt8, isSmallLetter (toLower c) = true →
      isColumnByte c = true ∧ isBlank c = false := by
    intro c hc
    have hblank : isBlank c = false := by
      rw [Bool.eq_false_iff]
      intro hblank
      have hcases : c = 32 ∨ c = 9 := by simpa [isBlank] using hblank
      rcases hcases with rfl | rfl <;> cases hc
    have hcomma : c ≠ comma := by
      rintro rfl
      cases hc
    exact ⟨by simp [isColumnByte, hblank, hcomma], hblank⟩
  exact hall c (h ▸ hd)

/-! ### Columns -/

def IsColumn (col : Bytes) : Prop := col ≠ [] ∧ ∀ c ∈ col, isColumnByte c = true

instance (col : Bytes) : Decidable (IsColumn col) :=
  inferInstanceAs (Decidable (col ≠ [] ∧ ∀ c ∈ col, _))

theorem isColumnByte_of_isBlank {c : UInt8} (h : isBlank c = true) : isColumnByte c = false := by
  rw [isColumnByte, h]
  rfl

theorem isBlank_of_isColumnByte {c : UInt8} (h : isColumnByte c = true) : isBlank c = false := by
  rw [isColumnByte] at h
  cases hblank : isBlank c with
  | false => rfl
  | true => simp [hblank] at h

/-- The text of a column, with or without an alias, before the rest. A comma
may follow it without a blank. -/
inductive ColumnText (rest : Bytes) : SelectItem → Bytes → Prop
  | plain {col blanks : Bytes} : IsColumn col → Blanks blanks →
      (blanks = [] → rest.head? = some comma) →
      ColumnText rest ⟨col, col⟩ (col ++ (blanks ++ rest))
  | renamed {col blanks word before target after : Bytes} : IsColumn col → Blanks blanks →
      blanks ≠ [] → Spells asWord word → Blanks before → IsColumn target → Blanks after →
      (after = [] → rest.head? = some comma) →
      ColumnText rest ⟨col, target⟩ (col ++ (blanks ++ (word ++ (before ++ (target ++ (after ++ rest))))))

/-- Columns separated by commas, up to the place after `from`. -/
inductive ColumnsText (rest : Bytes) : List SelectItem → Bytes → Prop
  | last {item : SelectItem} {word blanks text : Bytes} : Spells fromWord word → Blanks blanks →
      ColumnText (word ++ (blanks ++ rest)) item text → ColumnsText rest [item] text
  | cons {item : SelectItem} {items : List SelectItem} {blanks next text : Bytes} :
      Blanks blanks → ColumnsText rest items next →
      ColumnText (comma :: (blanks ++ next)) item text → ColumnsText rest (item :: items) text

theorem IsColumn.append_endsAt {col : Bytes} (h : IsColumn col) (rest : Bytes) :
    EndsAt isBlank (col ++ rest) :=
  endsAt_append h.1 h.2 (fun _ => isBlank_of_isColumnByte) rest

theorem ColumnText.endsAt {rest : Bytes} {item : SelectItem} {text : Bytes}
    (h : ColumnText rest item text) : EndsAt isBlank text := by
  cases h with
  | plain hcol hblanks hcomma => exact hcol.append_endsAt _
  | renamed hcol hblanks hne hword hbefore htarget hafter hcomma => exact hcol.append_endsAt _

theorem ColumnsText.endsAt {rest : Bytes} {items : List SelectItem} {text : Bytes}
    (h : ColumnsText rest items text) : EndsAt isBlank text := by
  cases h with
  | last hword hblanks hcolumn => exact hcolumn.endsAt
  | cons hblanks hitems hcolumn => exact hcolumn.endsAt

/-- The scan over a column ends at its blanks or at the comma. -/
theorem column_endsAt {blanks rest : Bytes} (hblanks : Blanks blanks)
    (hcomma : blanks = [] → rest.head? = some comma) : EndsAt isColumnByte (blanks ++ rest) := by
  by_cases hne : blanks = []
  · subst hne
    intro c hc
    obtain rfl : comma = c := Option.some.inj ((hcomma rfl).symm.trans hc)
    rfl
  · exact endsAt_blanks (fun _ => isColumnByte_of_isBlank) hne hblanks rest

/-- What stands after a column: a comma or a word other than `as`. -/
structure AfterColumn (rest : Bytes) : Prop where
  endsAt : EndsAt isBlank rest
  not_as : startsWith asWord rest = false

theorem afterColumn_comma (rest : Bytes) : AfterColumn (comma :: rest) := by
  constructor
  · intro c hc
    obtain rfl : comma = c := Option.some.inj hc
    rfl
  · exact startsWith_of_head (c := comma) rfl (by decide)

theorem afterColumn_from {word : Bytes} (h : Spells fromWord word) (rest : Bytes) :
    AfterColumn (word ++ rest) := by
  obtain ⟨c, tail, rfl, hlower⟩ := h.head
  constructor
  · intro d hd
    obtain rfl : c = d := Option.some.inj hd
    exact (isColumnByte_of_toLower hlower rfl).2
  · refine startsWith_of_head (c := c) rfl ?_
    rw [hlower]
    decide

/-- Reading a column that is written. -/
theorem ColumnText.readColumn {rest : Bytes} {item : SelectItem} {text : Bytes}
    (h : ColumnText rest item text) (hzero : 0 ∉ text) (hrest : AfterColumn rest) :
    readColumn text = afterColumn item rest := by
  cases h with
  | @plain col blanks hcol hblanks hcomma =>
      have hend := column_endsAt hblanks hcomma
      have hcopy : (tmqStrNew col : Bytes) = col := by
        apply (cstr_eq_self_iff col).mpr
        intro hmem
        exact hzero (List.mem_append_left _ hmem)
      rw [RuleParser.readColumn, takeWhile_endsAt hcol.2 hend, dropWhile_endsAt hcol.2 hend,
        skipBlank_endsAt hblanks hrest.endsAt, hrest.not_as, if_neg Bool.false_ne_true, hcopy]
  | @renamed col blanks word before target after hcol hblanks hne hword hbefore htarget hafter
      hcomma =>
      have hend := column_endsAt hafter hcomma
      obtain ⟨c, tail, rfl, hlower⟩ := hword.head
      have hstart : EndsAt isBlank (c :: tail ++ (before ++ (target ++ (after ++ rest)))) := by
        intro d hd
        obtain rfl : c = d := Option.some.inj hd
        exact (isColumnByte_of_toLower hlower rfl).2
      have hcolumn : EndsAt isColumnByte
          (blanks ++ (c :: tail ++ (before ++ (target ++ (after ++ rest))))) :=
        column_endsAt hblanks (fun h => absurd h hne)
      have hskip : skipBlank (((c :: tail) ++ (before ++ (target ++ (after ++ rest)))).drop 3)
          = target ++ (after ++ rest) := by
        rw [show 3 = asWord.length from rfl, drop_of_spells hword,
          skipBlank_endsAt hbefore (htarget.append_endsAt _)]
      rw [RuleParser.readColumn, takeWhile_endsAt hcol.2 hcolumn, dropWhile_endsAt hcol.2 hcolumn,
        skipBlank_endsAt hblanks hstart, startsWith_of_spells hword, if_pos rfl]
      simp only [hskip, takeWhile_endsAt htarget.2 hend, dropWhile_endsAt htarget.2 hend,
        skipBlank_endsAt hafter hrest.endsAt]

/-- Reading columns that are written, with a round for each. -/
theorem ColumnsText.readColumns {rest : Bytes} (hrest : EndsAt isBlank rest)
    {items : List SelectItem} {text : Bytes} (h : ColumnsText rest items text)
    (hzero : 0 ∉ text) {fuel : Nat} (hfuel : items.length ≤ fuel) :
    readColumns fuel text = some (.ok (items, rest)) := by
  induction h generalizing fuel with
  | @last item word blanks text hword hblanks hcolumn =>
      obtain ⟨fuel, rfl⟩ : ∃ n, fuel = n + 1 := ⟨fuel - 1, by simp at hfuel; omega⟩
      have hread := hcolumn.readColumn hzero (afterColumn_from hword _)
      obtain ⟨c, tail, rfl, hlower⟩ := hword.head
      have hcomma : (c :: tail ++ (blanks ++ rest)).head? ≠ some comma := by
        rintro hhead
        obtain rfl : c = comma := Option.some.inj hhead
        exact absurd hlower (by decide)
      have hskip : skipBlank ((c :: tail ++ (blanks ++ rest)).drop 5) = rest := by
        rw [show 5 = fromWord.length from rfl, drop_of_spells hword,
          skipBlank_endsAt hblanks hrest]
      rw [afterColumn, if_neg hcomma, startsWith_of_spells hword, if_pos rfl, hskip] at hread
      rw [RuleParser.readColumns, hread]
  | @cons item items blanks next text hblanks hitems hcolumn ih =>
      obtain ⟨fuel, rfl⟩ : ∃ n, fuel = n + 1 := ⟨fuel - 1, by simp at hfuel; omega⟩
      have hread := hcolumn.readColumn hzero (afterColumn_comma _)
      have hnext : 0 ∉ next := by
        intro hmem
        apply hzero
        cases hcolumn with
        | plain => simp [hmem]
        | renamed => simp [hmem]
      rw [afterColumn, List.head?_cons, if_pos rfl, List.tail_cons,
        skipBlank_endsAt hblanks hitems.endsAt] at hread
      rw [RuleParser.readColumns, hread]
      simp only [ih hnext (Nat.le_of_succ_le_succ hfuel), Option.map_some]
      rfl

theorem ColumnText.length_pos {rest : Bytes} {item : SelectItem} {text : Bytes}
    (h : ColumnText rest item text) : rest.length < text.length := by
  cases h with
  | plain hcol hblanks hcomma =>
      have := List.length_pos_iff.mpr hcol.1
      simp only [List.length_append]
      omega
  | renamed hcol hblanks hne hword hbefore htarget hafter hcomma =>
      have := List.length_pos_iff.mpr hcol.1
      simp only [List.length_append]
      omega

theorem ColumnsText.length_le {rest : Bytes} {items : List SelectItem} {text : Bytes}
    (h : ColumnsText rest items text) : items.length ≤ text.length := by
  induction h with
  | last hword hblanks hcolumn =>
      have := hcolumn.length_pos
      simp only [List.length_singleton]
      omega
  | cons hblanks hitems hcolumn ih =>
      have := hcolumn.length_pos
      simp only [List.length_cons, List.length_append] at this ⊢
      omega

/-! ### The event source -/

/-- A source by its name in braces, or a topic of messages, before the rest. A
topic ends at a blank or with the text. -/
inductive SourceText (rest : Bytes) : RegisteredSource → Option Bytes → Bytes → Prop
  | name {source : RegisteredSource} {blanks : Bytes} : source ∈ eventSources → Blanks blanks →
      SourceText rest source none
        (leftBrace :: source.name ++ (rightBrace :: (blanks ++ rest)))
  | topic {topic blanks : Bytes} : topic ≠ [] → (∀ c ∈ topic, (!isBlank c) = true) →
      topic.head? ≠ some leftBrace → Blanks blanks → (blanks = [] → rest = []) →
      SourceText rest messageEvents (some topic) (topic ++ (blanks ++ rest))

theorem eventSources_names :
    ∀ source ∈ eventSources, (∀ c ∈ leftBrace :: source.name, isSourceByte c = true) ∧
      eventSource? source.name = some source := by
  have hfind : ∀ source ∈ eventSources, (eventSource? source.name).map (·.name) = some source.name ∧
      (∀ c ∈ leftBrace :: source.name, isSourceByte c = true) := by decide +kernel
  intro source hsource
  refine ⟨(hfind source hsource).2, ?_⟩
  simp only [eventSources, List.mem_cons, List.not_mem_nil, or_false] at hsource
  rcases hsource with rfl | rfl | rfl | rfl <;> rfl

theorem SourceText.endsAt {rest : Bytes} {source : RegisteredSource} {topic : Option Bytes}
    {text : Bytes} (h : SourceText rest source topic text) : EndsAt isBlank text := by
  cases h with
  | name hsource hblanks =>
      intro c hc
      obtain rfl : leftBrace = c := Option.some.inj hc
      rfl
  | topic hne hbytes hhead hblanks hend =>
      exact endsAt_append hne hbytes (fun c hc => by simpa using hc) _

/-- Reading a source that is written. -/
theorem SourceText.readSource {rest : Bytes} (hrest : EndsAt isBlank rest)
    {source : RegisteredSource} {topic : Option Bytes} {text : Bytes}
    (h : SourceText rest source topic text) (rule : Bytes) :
    readSource rule text = .ok (source, topic, rest) := by
  cases h with
  | @name source blanks hsource hblanks =>
      obtain ⟨hbytes, hfind⟩ := eventSources_names source hsource
      have hend : EndsAt isSourceByte (rightBrace :: (blanks ++ rest)) := by
        intro c hc
        obtain rfl : rightBrace = c := Option.some.inj hc
        rfl
      have htake := takeWhile_endsAt hbytes hend
      have hdrop := dropWhile_endsAt hbytes hend
      have hhead : (leftBrace :: source.name ++ (rightBrace :: (blanks ++ rest))).head?
          = some leftBrace := rfl
      rw [RuleParser.readSource, if_pos hhead]
      simp only [htake, hdrop, List.head?_cons, ne_eq, not_true_eq_false, if_false,
        List.tail_cons, hfind, skipBlank_endsAt hblanks hrest]
  | @topic topic blanks hne hbytes hhead hblanks hend =>
      have hstop : EndsAt (!isBlank ·) (blanks ++ rest) := by
        by_cases hnil : blanks = []
        · obtain rfl := hend hnil
          subst hnil
          intro c hc
          cases hc
        · exact endsAt_blanks (fun c hc => by simp [hc]) hnil hblanks rest
      have hfirst : (topic ++ (blanks ++ rest)).head? ≠ some leftBrace := by
        obtain ⟨c, tail, rfl⟩ := List.exists_cons_of_ne_nil hne
        exact hhead
      rw [RuleParser.readSource, if_neg hfirst, takeWhile_endsAt hbytes hstop,
        dropWhile_endsAt hbytes hstop, skipBlank_endsAt hblanks hrest]

end RuleParser

end TinyMqtt
