import TinyMqtt.Tools.ConsoleCmd

/-!
Lines of the console. For commands that can be merged the graph has a node for
every beginning of a command, and the parser follows the line to the last node
that it can reach. It then runs the function of that node, also where the line
goes on.
-/

namespace TinyMqtt.ConsoleCmd

open FiniteMap (set)
open PatternGraph (BeginsWith Begins Compatible beginsWith_concat)

variable {F : Type*}

/-! ### Elements -/

theorem Element.isVariable_iff (e : Element) : e.IsVariable ↔ ∃ name, e = .var name := by
  cases e <;> simp [IsVariable, label]

theorem Element.accepts_iff {e : Element} (h : ¬e.IsVariable) (t : Bytes) :
    e.Accepts t ↔ t ∈ e.keys := by
  cases e with
  | keyword word => simp [Accepts, keys]
  | var name => exact absurd ((isVariable_iff _).mpr ⟨name, rfl⟩) h
  | opt name first others => rfl

theorem Element.accepts_of_isVariable {e : Element} (h : e.IsVariable) (t : Bytes) :
    e.Accepts t := by
  obtain ⟨name, rfl⟩ := e.isVariable_iff.mp h
  trivial

theorem Element.mem_keys_of_isVariable {e : Element} (h : e.IsVariable) (key : Bytes) :
    key ∈ e.keys ↔ key = variableKey := by
  obtain ⟨name, rfl⟩ := e.isVariable_iff.mp h
  exact List.mem_singleton

/-- The key of a variable leads to variables alone. -/
theorem Element.Proper.isVariable {e : Element} (h : e.Proper) (hkey : variableKey ∈ e.keys) :
    e.IsVariable := by
  cases e with
  | keyword word => exact absurd (List.mem_singleton.mp hkey).symm h.1
  | var name => rfl
  | opt name first others => exact absurd hkey h

/-- A key is accepted as a token, too. -/
theorem Element.accepts_of_mem_keys {e : Element} {key : Bytes} (h : key ∈ e.keys) :
    e.Accepts key := by
  by_cases hvariable : e.IsVariable
  · exact e.accepts_of_isVariable hvariable key
  · exact (e.accepts_iff hvariable key).mpr h

def Command.slots (command : Command F) : List (PatternGraph.Slot Bytes (NodeType × Bytes)) :=
  command.pattern.map Element.slot

/-- The graph of the nodes is that of the commands' patterns. -/
def Nodes.Holds (nodes : Nodes F) (commands : List (Command F)) : Prop :=
  PatternGraph.Represents nodes.graph (commands.map fun command => (command.slots, command.func))

theorem begins_slots_iff (command : Command F) (path : List Bytes) :
    Begins command.slots path ↔ BeginsWith (fun e key => key ∈ e.keys) command.pattern path := by
  refine forall₃_congr fun i key _ => ?_
  rw [Command.slots, List.getElem?_map]
  simp only [Option.map_eq_some_iff]
  constructor
  · rintro ⟨_, ⟨e, he, rfl⟩, hkey⟩
    exact ⟨e, he, hkey⟩
  · rintro ⟨e, he, hkey⟩
    exact ⟨_, ⟨e, he, rfl⟩, hkey⟩

theorem starts_concat (pattern : List Element) (tokens : List Bytes) (t : Bytes) :
    Starts pattern (tokens ++ [t]) ↔
      Starts pattern tokens ∧ ∃ e, pattern[tokens.length]? = some e ∧ e.Accepts t :=
  beginsWith_concat pattern tokens t

theorem starts_of_begins {command : Command F} {path : List Bytes}
    (h : Begins command.slots path) : Starts command.pattern path := by
  intro i key hkey
  obtain ⟨e, he, hmem⟩ := (begins_slots_iff command path).mp h i key hkey
  exact ⟨e, he, e.accepts_of_mem_keys hmem⟩

/-! ### Patterns that are told apart -/

/-- The patterns are equal up to elements that have no token in common. -/
def tellsApart : List Element → List Element → Bool
  | e :: pattern, e' :: pattern' =>
      if e = e' then tellsApart pattern pattern'
      else e.label.1 ≠ .var && e'.label.1 ≠ .var && e.keys.all fun key => !e'.keys.contains key
  | _, _ => true

section TellsApart

variable {p q : List Element} {tokens : List Bytes}

/-- The two elements where the patterns part, or an element of both. -/
theorem eq_or_disjoint {e e' : Element} {pattern pattern' : List Element}
    (h : tellsApart (e :: pattern) (e' :: pattern')) :
    e = e' ∧ tellsApart pattern pattern' ∨
      ¬e.IsVariable ∧ ¬e'.IsVariable ∧ ∀ t, e.Accepts t → ¬e'.Accepts t := by
  by_cases heq : e = e'
  · rw [tellsApart, if_pos heq] at h
    exact Or.inl ⟨heq, h⟩
  · simp only [tellsApart, if_neg heq, Bool.and_eq_true, decide_eq_true_eq, List.all_eq_true,
      Bool.not_eq_true', List.contains_eq_mem, decide_eq_false_iff_not] at h
    obtain ⟨⟨hvariable, hvariable'⟩, hkeys⟩ := h
    refine Or.inr ⟨hvariable, hvariable', fun t ht ht' => ?_⟩
    rw [Element.accepts_iff hvariable] at ht
    rw [Element.accepts_iff hvariable'] at ht'
    exact hkeys t ht ht'

/-- What the tokens have gone through is the same in both patterns. -/
theorem tellsApart_drop (h : tellsApart p q) (hp : Starts p tokens) (hq : Starts q tokens) :
    p.take tokens.length = q.take tokens.length ∧
      tellsApart (p.drop tokens.length) (q.drop tokens.length) := by
  induction tokens generalizing p q with
  | nil => exact ⟨rfl, h⟩
  | cons t tokens ih =>
      cases p with
      | nil => exact absurd hp.length_le (by simp)
      | cons e p =>
          cases q with
          | nil => exact absurd hq.length_le (by simp)
          | cons e' q =>
              obtain ⟨haccepts, hpRest⟩ := (PatternGraph.beginsWith_cons e p t tokens).mp hp
              obtain ⟨haccepts', hqRest⟩ := (PatternGraph.beginsWith_cons e' q t tokens).mp hq
              rcases eq_or_disjoint h with ⟨rfl, hrest⟩ | ⟨-, -, hdisjoint⟩
              · obtain ⟨htake, hdrop⟩ := ih hrest hpRest hqRest
                exact ⟨congrArg (e :: ·) htake, hdrop⟩
              · exact absurd haccepts' (hdisjoint t haccepts)

/-- The elements that come next. -/
theorem tellsApart_next (h : tellsApart p q) (hp : Starts p tokens) (hq : Starts q tokens)
    {e e' : Element} (he : p[tokens.length]? = some e) (he' : q[tokens.length]? = some e') :
    e = e' ∨ ¬e.IsVariable ∧ ¬e'.IsVariable ∧ ∀ t, e.Accepts t → ¬e'.Accepts t := by
  obtain ⟨-, hdrop⟩ := tellsApart_drop h hp hq
  obtain ⟨hlt, rfl⟩ := List.getElem?_eq_some_iff.mp he
  obtain ⟨hlt', rfl⟩ := List.getElem?_eq_some_iff.mp he'
  rw [List.drop_eq_getElem_cons hlt, List.drop_eq_getElem_cons hlt'] at hdrop
  exact (eq_or_disjoint hdrop).imp_left And.left

theorem starts_of_take_eq {tokens' : List Bytes} (h : p.take tokens.length = q.take tokens.length)
    (hlength : tokens'.length = tokens.length) (hp : Starts p tokens') : Starts q tokens' := by
  have hle := hp.length_le
  rw [← List.take_append_drop tokens.length p] at hp
  have htake := hp.of_append (by simp only [List.length_take]; omega)
  rw [h] at htake
  rw [← List.take_append_drop tokens.length q]
  exact htake.append _

end TellsApart

/-- Commands whose patterns are told apart can be merged. -/
theorem regular_of_tellsApart {commands : List (Command F)}
    (hproper : ∀ command ∈ commands, ∀ e ∈ command.pattern, e.Proper)
    (hapart : ∀ c ∈ commands, ∀ d ∈ commands, tellsApart c.pattern d.pattern) :
    Regular commands := by
  refine { proper := hproper, apart := ?_, alike := ?_ }
  · intro c hc d hd tokens hstarts hstartsD e e' he he'
    rcases tellsApart_next (hapart c hc d hd) hstarts hstartsD he he' with rfl | ⟨hvar, hvar', -⟩
    · exact Iff.rfl
    · exact iff_of_false hvar hvar'
  · intro c hc d hd tokens t hgoes hgoesD
    obtain ⟨hstarts, e, he, haccepts⟩ := (starts_concat _ _ _).mp hgoes
    obtain ⟨hstartsD, e', he', haccepts'⟩ := (starts_concat _ _ _).mp hgoesD
    have hsame : e = e' := by
      refine (tellsApart_next (hapart c hc d hd) hstarts hstartsD he he').resolve_right ?_
      rintro ⟨-, -, hdisjoint⟩
      exact hdisjoint t haccepts haccepts'
    obtain ⟨htake, -⟩ := tellsApart_drop (hapart c hc d hd) hstarts hstartsD
    refine ⟨fun tokens' hlength => ⟨starts_of_take_eq htake hlength,
      starts_of_take_eq htake.symm hlength⟩, ?_⟩
    intro first second hfirst hsecond
    obtain rfl := Option.some.inj (he.symm.trans hfirst)
    obtain rfl := Option.some.inj (he'.symm.trans hsecond)
    rw [hsame]

theorem Element.proper_opt_iff (name first : Bytes) (others : List Bytes) :
    (first :: others).contains variableKey = false ↔ (opt name first others).Proper := by
  rw [List.contains_eq_mem, decide_eq_false_iff_not]
  rfl

instance (e : Element) : Decidable e.Proper :=
  match e with
  | .keyword word => inferInstanceAs (Decidable (word ≠ variableKey ∧ word.head? ≠ some 254 ∧
      word.head? ≠ some 255))
  | .var _ => inferInstanceAs (Decidable True)
  | .opt name first others => decidable_of_iff _ (Element.proper_opt_iff name first others)

theorem regular_shellCommands : Regular shellCommands :=
  regular_of_tellsApart (by decide) (by decide)

/-! ### The commands in the graph -/

namespace Regular

variable {commands : List (Command F)}

/-- Commands that have a path in common have the same paths before its last
key. -/
theorem begins_of_begins (h : Regular commands) {c d : Command F} (hc : c ∈ commands)
    (hd : d ∈ commands) {path path' : List Bytes} {key : Bytes}
    (hpath : Begins c.slots (path ++ [key])) (hpathD : Begins d.slots (path ++ [key]))
    (hlength : path'.length = path.length) (hpath' : Begins c.slots path') :
    Begins d.slots path' := by
  have hsame := (h.alike c hc d hd path key (starts_of_begins hpath) (starts_of_begins hpathD)).1
  have hstarts := (hsame path' hlength).mp (starts_of_begins hpath')
  rw [begins_slots_iff] at hpath hpathD hpath' ⊢
  intro i key' hkey'
  obtain ⟨e', he', haccepts⟩ := hstarts i key' hkey'
  refine ⟨e', he', ?_⟩
  by_cases hvariable : e'.IsVariable
  · -- the common path has the key of a variable there, and so has every path of `c`
    have hi : i < path.length := hlength ▸ (List.getElem?_eq_some_iff.mp hkey').1
    have hcommon : (path ++ [key])[i]? = some path[i] := by
      rw [List.getElem?_append_left hi, List.getElem?_eq_getElem hi]
    obtain ⟨e, he, hmem⟩ := hpath i _ hcommon
    obtain ⟨other, hother, hmemD⟩ := hpathD i _ hcommon
    obtain rfl := Option.some.inj (hother.symm.trans he')
    rw [(Element.mem_keys_of_isVariable hvariable _).mp hmemD] at hmem
    have hproper := h.proper c hc e (List.mem_of_getElem? he)
    obtain ⟨e'', he'', hmem''⟩ := hpath' i key' hkey'
    obtain rfl := Option.some.inj (he''.symm.trans he)
    rw [(Element.mem_keys_of_isVariable (hproper.isVariable hmem) _).mp hmem'']
    exact (Element.mem_keys_of_isVariable hvariable _).mpr rfl
  · exact (Element.accepts_iff hvariable key').mp haccepts

theorem compatible (h : Regular commands) {c d : Command F} (hc : c ∈ commands)
    (hd : d ∈ commands) : Compatible c.slots d.slots := by
  intro path key hpath hpathD
  refine ⟨fun path' hlength => ⟨fun hpath' => h.begins_of_begins hc hd hpath hpathD hlength hpath',
    fun hpath' => h.begins_of_begins hd hc hpathD hpath hlength hpath'⟩, ?_⟩
  intro slot slot' hslot hslot'
  rw [Command.slots, List.getElem?_map, Option.map_eq_some_iff] at hslot hslot'
  obtain ⟨e, he, rfl⟩ := hslot
  obtain ⟨e', he', rfl⟩ := hslot'
  have halike := h.alike c hc d hd path key (starts_of_begins hpath) (starts_of_begins hpathD)
  exact halike.2 e e' he he'

/-- One more command. -/
theorem build (h : Regular commands) {done : List (Command F)} {nodes : Nodes F}
    (hdone : nodes.Holds done) (hall : ∀ d ∈ done, d ∈ commands) {command : Command F}
    (hcommand : command ∈ commands) :
    ∃ built, tmqConsoleCmdBuild nodes command = some built ∧ built.Holds (done ++ [command]) := by
  obtain ⟨built, hbuilt, hgraph⟩ := graph_tmqConsoleCmdBuild (h.proper command hcommand) nodes
  have hkeys : ∀ slot ∈ command.slots, slot.keys ≠ [] := by
    intro slot hslot
    obtain ⟨e, -, rfl⟩ := List.mem_map.mp hslot
    cases e <;> exact List.cons_ne_nil _ _
  have hadded := hdone.addPattern command.func hkeys fun entry hentry => by
    obtain ⟨d, hd, rfl⟩ := List.mem_map.mp hentry
    exact h.compatible hcommand (hall d hd)
  refine ⟨built, hbuilt, ?_⟩
  rw [Nodes.Holds, hgraph, List.map_append]
  exact hadded

/-- All commands are registered, and the graph is that of their patterns. -/
theorem initCommands (h : Regular commands) :
    ∃ nodes, ConsoleCmd.initCommands commands = some nodes ∧ nodes.Holds commands := by
  have hempty : (tmqConsoleCmdInit : Nodes F).Holds [] :=
    PatternGraph.represents_empty fun _ => (NodeType.keyword, [])
  suffices hbuild : ∀ rest done : List (Command F), ∀ nodes : Nodes F,
      (∀ c ∈ done ++ rest, c ∈ commands) → nodes.Holds done →
      ∃ built, rest.foldlM tmqConsoleCmdBuild nodes = some built ∧
        built.Holds (done ++ rest) from
    hbuild commands [] tmqConsoleCmdInit (fun _ hc => hc) hempty
  intro rest
  induction rest with
  | nil =>
      intro done nodes _ hdone
      refine ⟨nodes, rfl, ?_⟩
      rw [List.append_nil]
      exact hdone
  | cons command rest ih =>
      intro done nodes hall hdone
      have hcommand := hall command (List.mem_append_right _ List.mem_cons_self)
      obtain ⟨next, hnext, hadded⟩ :=
        h.build hdone (fun d hd => hall d (List.mem_append_left _ hd)) hcommand
      have hsplit : done ++ command :: rest = done ++ [command] ++ rest := by simp
      rw [hsplit] at hall ⊢
      rw [List.foldlM_cons, hnext]
      exact ih (done ++ [command]) next hall hadded

end Regular

/-! ### Following a line -/

/-- The last token binds the last element. -/
theorem bindings_concat {pattern : List Element} {tokens : List Bytes} {e : Element} (t : Bytes)
    (args : ArgsMap) (he : pattern[tokens.length]? = some e) :
    bindings pattern (tokens ++ [t]) args = e.bind t (bindings pattern tokens args) := by
  induction tokens generalizing pattern args with
  | nil =>
      cases pattern with
      | nil => cases he
      | cons first pattern =>
          obtain rfl := Option.some.inj he
          cases pattern <;> rfl
  | cons token tokens ih =>
      cases pattern with
      | nil => cases he
      | cons first pattern => exact ih (first.bind token args) he

/-- The parser is at `cur` after the tokens. The path has the keys of the edges
to it. -/
structure Following (nodes : Nodes F) (commands : List (Command F)) (path tokens : List Bytes)
    (cur : Nat) (args : ArgsMap) : Prop where
  reached : nodes.graph.reach path = some cur
  length : path.length = tokens.length
  begins : ∀ c ∈ commands, (Begins c.slots path ↔ Starts c.pattern tokens)
  bound : ∀ c ∈ commands, Starts c.pattern tokens →
    bindings c.pattern tokens (fun _ => none) = args

namespace Following

variable {nodes : Nodes F} {commands : List (Command F)} {path tokens : List Bytes} {cur : Nat}
  {args : ArgsMap} {t : Bytes}

theorem root (nodes : Nodes F) (commands : List (Command F)) :
    Following nodes commands [] [] 0 fun _ => none := by
  refine { reached := rfl, length := rfl, begins := fun c _ => ?_, bound := fun c _ _ => ?_ }
  · exact iff_of_true (PatternGraph.begins_nil _) (PatternGraph.beginsWith_nil _ _)
  · cases c.pattern <;> rfl

def KeyFor (commands : List (Command F)) (tokens : List Bytes) (t key : Bytes) : Prop :=
  ∀ c ∈ commands, Starts c.pattern tokens → ∀ e, c.pattern[tokens.length]? = some e →
    (e.Accepts t ↔ key ∈ e.keys)

theorem begins_concat_iff (h : Following nodes commands path tokens cur args) {key : Bytes}
    (hkey : KeyFor commands tokens t key) {c : Command F} (hc : c ∈ commands) :
    Begins c.slots (path ++ [key]) ↔ Starts c.pattern (tokens ++ [t]) := by
  rw [begins_slots_iff, beginsWith_concat, ← begins_slots_iff, h.begins c hc, starts_concat,
    h.length]
  refine and_congr_right fun hstarts => exists_congr fun e => and_congr_right fun he => ?_
  exact (hkey c hc hstarts e he).symm

/-- The edge of a key that stands for the token leads to a node of the token. -/
theorem exists_starts (h : Following nodes commands path tokens cur args)
    (hgraph : nodes.Holds commands)
    (hne : tokens ≠ []) : ∃ c ∈ commands, Starts c.pattern tokens := by
  have hpath : path ≠ [] := by
    rintro rfl
    exact hne (List.length_eq_zero_iff.mp h.length.symm)
  obtain ⟨p, hp, hbegins⟩ := ((hgraph.merged.reached path).mp ⟨cur, h.reached⟩).resolve_left hpath
  obtain ⟨entry, hentry, rfl⟩ := List.mem_map.mp hp
  obtain ⟨c, hc, rfl⟩ := List.mem_map.mp hentry
  exact ⟨c, hc, (h.begins c hc).mp hbegins⟩

/-- The edge of a key that stands for the token. -/
theorem step (h : Following nodes commands path tokens cur args)
    (hgraph : nodes.Holds commands)
    {key : Bytes} (hkey : KeyFor commands tokens t key) {next : Nat}
    (hnext : (nodes.node cur).next key = some next) :
    Following nodes commands (path ++ [key]) (tokens ++ [t]) next
      (if (nodes.node next).type = .keyword then args
        else set args (nodes.node next).name t) := by
  have hreached : nodes.graph.reach (path ++ [key]) = some next := by
    rw [PatternGraph.Graph.reach_concat, h.reached]
    exact hnext
  refine { reached := hreached, length := by simp [h.length],
           begins := fun c hc => h.begins_concat_iff hkey hc, bound := ?_ }
  intro c hc hstarts
  obtain ⟨hbefore, e, he, -⟩ := (starts_concat _ _ _).mp hstarts
  have hslot : c.slots[path.length]? = some e.slot := by
    rw [Command.slots, List.getElem?_map, h.length, he]
    rfl
  have hpattern : c.slots ∈ (commands.map fun c => (c.slots, c.func)).map Prod.fst :=
    List.mem_map_of_mem (List.mem_map_of_mem hc)
  have hlabel : ((nodes.node next).type, (nodes.node next).name) = e.label :=
    hgraph.merged.labels c.slots hpattern path key e.slot next hslot
      ((h.begins_concat_iff hkey hc).mpr hstarts) hreached
  rw [bindings_concat t _ he, h.bound c hc hbefore, Element.bind, ← hlabel]

/-- A key under which the node has no edge stands for a token that no command
goes on with. -/
theorem not_starts_of_none (h : Following nodes commands path tokens cur args)
    (hgraph : nodes.Holds commands)
    {key : Bytes} (hnext : (nodes.node cur).next key = none) {c : Command F} (hc : c ∈ commands) :
    ¬Begins c.slots (path ++ [key]) := by
  intro hbegins
  obtain ⟨n, hn⟩ := hgraph.merged.reach_of_begins
    (List.mem_map_of_mem (List.mem_map_of_mem hc)) hbegins
  rw [PatternGraph.Graph.reach_concat, h.reached] at hn
  have hedge : (nodes.node cur).next key = some n := hn
  rw [hnext] at hedge
  cases hedge

/-- A command that goes on under a key. -/
theorem exists_command_of_next (h : Following nodes commands path tokens cur args)
    (hgraph : nodes.Holds commands)
    {key : Bytes} {next : Nat} (hnext : (nodes.node cur).next key = some next) :
    ∃ d ∈ commands, Starts d.pattern tokens ∧
      ∃ e, d.pattern[tokens.length]? = some e ∧ key ∈ e.keys := by
  have hreached : nodes.graph.reach (path ++ [key]) = some next := by
    rw [PatternGraph.Graph.reach_concat, h.reached]
    exact hnext
  obtain ⟨p, hp, hbegins⟩ := ((hgraph.merged.reached _).mp ⟨next, hreached⟩).resolve_left (by simp)
  obtain ⟨entry, hentry, rfl⟩ := List.mem_map.mp hp
  obtain ⟨d, hd, rfl⟩ := List.mem_map.mp hentry
  rw [begins_slots_iff, beginsWith_concat, ← begins_slots_iff, h.length] at hbegins
  exact ⟨d, hd, (h.begins d hd).mp hbegins.1, hbegins.2⟩

/-- What one token does: it leads on, or no command goes on with it. -/
theorem next_cases (h : Following nodes commands path tokens cur args) (hregular : Regular commands)
    (hgraph : nodes.Holds commands)
    (t : Bytes) :
    (∃ next key, ((nodes.node cur).next variableKey).or ((nodes.node cur).next t) = some next ∧
        (nodes.node cur).next key = some next ∧ KeyFor commands tokens t key) ∨
      ((nodes.node cur).next variableKey).or ((nodes.node cur).next t) = none ∧
        ∀ c ∈ commands, ¬Starts c.pattern (tokens ++ [t]) := by
  cases hvariable : (nodes.node cur).next variableKey with
  | some next =>
      obtain ⟨d, hd, hstartsD, e, he, hmem⟩ := h.exists_command_of_next hgraph hvariable
      have hisVariable := (hregular.proper d hd e (List.mem_of_getElem? he)).isVariable hmem
      refine Or.inl ⟨next, variableKey, rfl, hvariable, ?_⟩
      intro c hc hstarts e' he'
      have hother := (hregular.apart d hd c hc tokens hstartsD hstarts e e' he he').mp hisVariable
      exact iff_of_true (e'.accepts_of_isVariable hother t)
        ((Element.mem_keys_of_isVariable hother _).mpr rfl)
  | none =>
      have hnone := fun c (hc : c ∈ commands) => h.not_starts_of_none hgraph hvariable hc
      have hword : KeyFor commands tokens t t := by
        intro c hc hstarts e he
        refine e.accepts_iff (fun hisVariable => hnone c hc ?_) t
        rw [begins_slots_iff, beginsWith_concat, ← begins_slots_iff, h.length]
        exact ⟨(h.begins c hc).mpr hstarts, e, he,
          (Element.mem_keys_of_isVariable hisVariable _).mpr rfl⟩
      cases hnext : (nodes.node cur).next t with
      | some next => exact Or.inl ⟨next, t, rfl, hnext, hword⟩
      | none =>
          refine Or.inr ⟨rfl, fun c hc hstarts => ?_⟩
          exact h.not_starts_of_none hgraph hnext hc ((h.begins_concat_iff hword hc).mpr hstarts)

/-- The parser follows the rest of the line, or stops at the first token that no
command goes on with. -/
theorem parseLoop (h : Following nodes commands path tokens cur args) (hregular : Regular commands)
    (hgraph : nodes.Holds commands)
    (rest : List Bytes) :
    (∃ path' last args', ConsoleCmd.parseLoop nodes cur args rest = (0, last, args') ∧
        Following nodes commands path' (tokens ++ rest) last args') ∨
      ∃ before t after path' stop args', rest = before ++ t :: after ∧
        ConsoleCmd.parseLoop nodes cur args rest = (-1, stop, args') ∧
        Following nodes commands path' (tokens ++ before) stop args' ∧
        ∀ c ∈ commands, ¬Starts c.pattern (tokens ++ before ++ [t]) := by
  induction rest generalizing path tokens cur args with
  | nil =>
      rw [List.append_nil]
      exact Or.inl ⟨path, cur, args, rfl, h⟩
  | cons t rest ih =>
      rw [ConsoleCmd.parseLoop]
      rcases h.next_cases hregular hgraph t with ⟨next, key, hor, hnext, hkey⟩ | ⟨hor, hnone⟩
      · have hsplit : tokens ++ t :: rest = tokens ++ [t] ++ rest := by simp
        rw [hor, hsplit]
        rcases ih (h.step hgraph hkey hnext) with hall | hstop
        · exact Or.inl hall
        · obtain ⟨before, t', after, path', stop, args', rfl, hloop, hfollowing, hnone⟩ := hstop
          have happend : tokens ++ t :: before = tokens ++ [t] ++ before := by simp
          refine Or.inr ⟨t :: before, t', after, path', stop, args', rfl, hloop, ?_, ?_⟩
          · rw [happend]
            exact hfollowing
          · rw [happend]
            exact hnone
      · rw [hor]
        refine Or.inr ⟨[], t, rest, path, cur, args, rfl, rfl, ?_, ?_⟩
        · rw [List.append_nil]
          exact h
        · rw [List.append_nil]
          exact hnone

/-- The whole path of a command. -/
theorem matches_iff (h : Following nodes commands path tokens cur args) {c : Command F}
    (hc : c ∈ commands) :
    PatternGraph.Matches c.slots path ↔ List.Forall₂ Element.Accepts c.pattern tokens := by
  rw [PatternGraph.Matches, h.begins c hc, PatternGraph.forall₂_iff_beginsWith, h.length,
    Command.slots, List.length_map]

/-- The function of the node is that of a command with these tokens. -/
theorem exists_command_of_exec (h : Following nodes commands path tokens cur args)
    (hgraph : nodes.Holds commands)
    {f : F} (hexec : (nodes.node cur).commandExec = some f) :
    ∃ c ∈ commands, List.Forall₂ Element.Accepts c.pattern tokens ∧ c.func = f ∧
      bindings c.pattern tokens (fun _ => none) = args := by
  obtain ⟨entry, hentry, hmatches, hfunc⟩ := (hgraph.values path cur h.reached).1 f hexec
  obtain ⟨c, hc, rfl⟩ := List.mem_map.mp hentry
  have hall := (h.matches_iff hc).mp hmatches
  have hstarts := ((PatternGraph.forall₂_iff_beginsWith _ _).mp hall).2
  exact ⟨c, hc, hall, hfunc, h.bound c hc hstarts⟩

theorem not_forall₂_of_exec (h : Following nodes commands path tokens cur args)
    (hgraph : nodes.Holds commands)
    (hexec : (nodes.node cur).commandExec = none) {c : Command F} (hc : c ∈ commands) :
    ¬List.Forall₂ Element.Accepts c.pattern tokens := by
  intro hall
  exact (hgraph.values path cur h.reached).2 hexec _ (List.mem_map_of_mem hc)
    ((h.matches_iff hc).mpr hall)

end Following

/-! ### Lines that run on -/

theorem starts_of_forall₂ {pattern : List Element} {tokens : List Bytes}
    (h : List.Forall₂ Element.Accepts pattern tokens) : Starts pattern tokens :=
  ((PatternGraph.forall₂_iff_beginsWith pattern tokens).mp h).2

theorem Starts.shorten {pattern : List Element} {tokens tokens' : List Bytes}
    (h : Starts pattern tokens') (hbegin : tokens <+: tokens') : Starts pattern tokens := by
  obtain ⟨more, rfl⟩ := hbegin
  exact h.left

/-- The line runs on exactly where the parser stops, if it does. -/
theorem runsOn_iff {commands : List (Command F)} {before after : List Bytes} {t : Bytes}
    (hstarts : before ≠ [] → ∃ c ∈ commands, Starts c.pattern before)
    (hnone : ∀ c ∈ commands, ¬Starts c.pattern (before ++ [t])) :
    RunsOn commands (before ++ t :: after) ↔
      ∃ c ∈ commands, List.Forall₂ Element.Accepts c.pattern before := by
  constructor
  · rintro ⟨before', t', after', heq, ⟨c, hc, hall⟩, hnone'⟩
    have hbegin : before ++ [t] <+: before ++ t :: after := ⟨after, by simp⟩
    have hwhole : before' ++ [t'] <+: before ++ t :: after := ⟨after', by simp [heq]⟩
    rcases Nat.lt_trichotomy before'.length before.length with hlt | hsame | hgt
    · -- the parser goes past the token
      have hne : before ≠ [] := List.ne_nil_of_length_pos (by omega)
      obtain ⟨d, hd, hbefore⟩ := hstarts hne
      have hshort : before' ++ [t'] <+: before :=
        List.prefix_of_prefix_length_le hwhole (List.prefix_append _ _) (by simp; omega)
      exact absurd (hbefore.shorten hshort) (hnone' d hd)
    · have hbefore : before = before' := (List.append_inj heq hsame.symm).1
      rw [hbefore]
      exact ⟨c, hc, hall⟩
    · have hlong : before ++ [t] <+: before' :=
        List.prefix_of_prefix_length_le hbegin ((List.prefix_append _ _).trans hwhole)
          (by simp; omega)
      exact absurd ((starts_of_forall₂ hall).shorten hlong) (hnone c hc)
  · exact fun hcommand => ⟨before, t, after, rfl, hcommand, hnone⟩

theorem tmqConsoleCmdParse_of_some {nodes : Nodes F} {line : Bytes} {ret : Int} {cur : Nat}
    {args : ArgsMap} {f : F}
    (hloop : parseLoop nodes 0 (fun _ => none) (tokensOf line) = (ret, cur, args))
    (hexec : (nodes.node cur).commandExec = some f) :
    tmqConsoleCmdParse nodes line = (ret, some (f, args)) := by
  simp only [tmqConsoleCmdParse, hloop, hexec]

theorem tmqConsoleCmdParse_of_none {nodes : Nodes F} {line : Bytes} {ret : Int} {cur : Nat}
    {args : ArgsMap}
    (hloop : parseLoop nodes 0 (fun _ => none) (tokensOf line) = (ret, cur, args))
    (hexec : (nodes.node cur).commandExec = none) :
    tmqConsoleCmdParse nodes line = (-1, none) := by
  simp only [tmqConsoleCmdParse, hloop, hexec]

section Lines

variable {commands : List (Command F)} {nodes : Nodes F} {line : Bytes} {path : List Bytes}
  {cur : Nat} {args : ArgsMap}

theorem conforms_of_initCommands (h : initCommands commands = some nodes) (line : Bytes) :
    Conforms commands line ↔
      (∃ command ∈ commands, List.Forall₂ Element.Accepts command.pattern (tokensOf line) ∧
        tmqConsoleCmdParse nodes line =
          (0, some (command.func, bindings command.pattern (tokensOf line) fun _ => none))) ∨
      (∀ command ∈ commands, ¬List.Forall₂ Element.Accepts command.pattern (tokensOf line)) ∧
        tmqConsoleCmdParse nodes line = (-1, none) := by
  constructor
  · rintro ⟨nodes', hnodes', hline⟩
    rw [h] at hnodes'
    obtain rfl := Option.some.inj hnodes'
    exact hline
  · exact fun hline => ⟨nodes, h, hline⟩

/-- A line that the parser follows to its end conforms, and does not run on. -/
theorem conforms_of_followed (hnodes : initCommands commands = some nodes)
    (hgraph : nodes.Holds commands)
    (hloop : parseLoop nodes 0 (fun _ => none) (tokensOf line) = (0, cur, args))
    (hfollowing : Following nodes commands path (tokensOf line) cur args) :
    Conforms commands line ∧ ¬RunsOn commands (tokensOf line) := by
  constructor
  · apply (conforms_of_initCommands hnodes line).mpr
    cases hexec : (nodes.node cur).commandExec with
    | some f =>
        obtain ⟨c, hc, hall, rfl, rfl⟩ := hfollowing.exists_command_of_exec hgraph hexec
        exact Or.inl ⟨c, hc, hall, tmqConsoleCmdParse_of_some hloop hexec⟩
    | none =>
        exact Or.inr ⟨fun c hc => hfollowing.not_forall₂_of_exec hgraph hexec hc,
          tmqConsoleCmdParse_of_none hloop hexec⟩
  · rintro ⟨before, t, after, htokens, -, hnone⟩
    have hne : tokensOf line ≠ [] := by simp [htokens]
    obtain ⟨c, hc, hstarts⟩ := hfollowing.exists_starts hgraph hne
    exact hnone c hc (hstarts.shorten ⟨after, by simp [htokens]⟩)

/-- Where the parser stops within the line, the line conforms unless the node
has a function. -/
theorem conforms_of_stopped (hnodes : initCommands commands = some nodes)
    (hgraph : nodes.Holds commands)
    {before after : List Bytes} {t : Bytes} (htokens : tokensOf line = before ++ t :: after)
    (hloop : parseLoop nodes 0 (fun _ => none) (tokensOf line) = (-1, cur, args))
    (hfollowing : Following nodes commands path before cur args)
    (hnone : ∀ c ∈ commands, ¬Starts c.pattern (before ++ [t])) :
    Conforms commands line ↔ ¬RunsOn commands (tokensOf line) := by
  rw [htokens, runsOn_iff (hfollowing.exists_starts hgraph) hnone, conforms_of_initCommands hnodes]
  cases hexec : (nodes.node cur).commandExec with
  | some f =>
      obtain ⟨c, hc, hall, -, -⟩ := hfollowing.exists_command_of_exec hgraph hexec
      rw [tmqConsoleCmdParse_of_some hloop hexec]
      refine iff_of_false ?_ (not_not_intro ⟨c, hc, hall⟩)
      rintro (⟨d, -, -, hret⟩ | ⟨-, hnothing⟩)
      · cases hret
      · cases hnothing
  | none =>
      refine iff_of_true (Or.inr ⟨?_, tmqConsoleCmdParse_of_none hloop hexec⟩) ?_
      · intro c hc hall
        rw [htokens] at hall
        exact hnone c hc ((starts_of_forall₂ hall).shorten ⟨after, by simp⟩)
      · rintro ⟨c, hc, hall⟩
        exact hfollowing.not_forall₂_of_exec hgraph hexec hc hall

/-- For commands that can be merged, a line conforms unless it runs on: then the
parser runs the function and reports a syntax error. -/
theorem conforms_iff (h : Regular commands) (line : Bytes) :
    Conforms commands line ↔ ¬RunsOn commands (tokensOf line) := by
  obtain ⟨nodes, hnodes, hgraph⟩ := h.initCommands
  rcases (Following.root nodes commands).parseLoop h hgraph (tokensOf line) with
    ⟨path, last, args, hloop, hfollowing⟩ |
    ⟨before, t, after, path, stop, args, htokens, hloop, hfollowing, hnone⟩
  · obtain ⟨hconforms, hends⟩ := conforms_of_followed hnodes hgraph hloop hfollowing
    exact iff_of_true hconforms hends
  · exact conforms_of_stopped hnodes hgraph htokens hloop hfollowing hnone

end Lines

theorem conforms_iff_quit :
    Conforms shellCommands (word "quit") ↔ ¬RunsOn shellCommands (tokensOf (word "quit")) :=
  conforms_iff regular_shellCommands (word "quit")

/-- The shell quits on a line that goes on after `quit`, which is a syntax
error. -/
theorem not_conforms_quit_now : ¬Conforms shellCommands (word "quit now") := by
  have hparse : (initCommands shellCommands).map (fun nodes =>
      ((tmqConsoleCmdParse nodes (word "quit now")).1,
        (tmqConsoleCmdParse nodes (word "quit now")).2.map Prod.fst)) = some (-1, some .quit) := by
    decide
  rintro ⟨nodes, hnodes, hline⟩
  rw [hnodes] at hparse
  obtain ⟨hret, hexec⟩ := Prod.mk.inj (Option.some.inj hparse)
  rcases hline with ⟨c, -, -, hzero⟩ | ⟨-, hnone⟩
  · rw [hzero] at hret
    cases hret
  · rw [hnone] at hexec
    cases hexec

end TinyMqtt.ConsoleCmd
