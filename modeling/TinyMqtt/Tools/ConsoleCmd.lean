import TinyMqtt.Config.ConfigFile
import TinyMqtt.Lib.PatternGraph

/-!
The commands of the console (`tools/mqtt_console_cmd.c`). A command is a
sequence of keywords, options and variables with a function; all of them are
merged into one graph, along which a line is followed word by word. Nodes are
numbered in the order in which they are allocated, the root being 0. Freeing
the placeholders and the tokens is left out.
-/

namespace TinyMqtt.ConsoleCmd

open FiniteMap (set)
open PatternGraph (BeginsWith)

variable {F : Type*}

inductive NodeType where
  | keyword
  | var
  | opt
  deriving DecidableEq, Repr

/-- `tmq_console_cmd_node_t`. -/
structure Node (F : Type*) where
  type : NodeType
  name : Bytes
  commandExec : Option F
  next : Bytes → Option Nat

/-- The nodes that have been allocated. -/
structure Nodes (F : Type*) where
  node : Nat → Node F
  size : Nat

/-- An argument of `tmq_console_cmd_build`. `CONSOLE_OPTION` takes at least one
value. -/
inductive Element where
  | keyword (word : Bytes)
  | var (name : Bytes)
  | opt (name first : Bytes) (others : List Bytes)
  deriving DecidableEq, Repr

structure Command (F : Type*) where
  func : F
  pattern : List Element

/-- `__variable`, the key of the edge to a variable. -/
def variableKey : Bytes := [95, 95, 118, 97, 114, 105, 97, 98, 108, 101]

def word (s : String) : Bytes := s.toUTF8.data.toList

/-- `tmq_console_cmd_node_new`, without the children. -/
def Node.new (type : NodeType) (name : Bytes) : Node F :=
  { type := type, name := name, commandExec := none, next := fun _ => none }

def tmqConsoleCmdInit : Nodes F := { node := fun _ => .new .keyword [], size := 1 }

namespace Nodes

def alloc (nodes : Nodes F) (node : Node F) : Nodes F :=
  { node := fun n => if n = nodes.size then node else nodes.node n, size := nodes.size + 1 }

/-- `tmq_map_put((*parent)->next, key, node)`. -/
def putNext (nodes : Nodes F) (parent : Nat) (key : Bytes) (child : Nat) : Nodes F :=
  { nodes with node := fun n =>
      if n = parent then { nodes.node n with next := set (nodes.node n).next key child }
      else nodes.node n }

def putAll (nodes : Nodes F) (parents : List Nat) (key : Bytes) (child : Nat) : Nodes F :=
  parents.foldl (fun nodes parent => nodes.putNext parent key child) nodes

/-- What `add_option`, `add_variable` and `add_keyword` do with a key: look for
a child of one of the parents, or make one, and put it under all parents. -/
def addChild (nodes : Nodes F) (parents : List Nat) (key : Bytes) (type : NodeType) (name : Bytes) :
    Nodes F × Nat :=
  match parents.findSome? fun parent => (nodes.node parent).next key with
  | some child => (nodes.putAll parents key child, child)
  | none => ((nodes.alloc (.new type name)).putAll parents key nodes.size, nodes.size)

def addOption (nodes : Nodes F) (parents : List Nat) (name : Bytes) (optionsValues : List Bytes) :
    Nodes F × List Nat :=
  optionsValues.foldl (fun (nodes, curs) op =>
    let (nodes, node) := addChild nodes parents op .opt name
    (nodes, curs ++ [node])) (nodes, [])

def addVariable (nodes : Nodes F) (parents : List Nat) (varName : Bytes) : Nodes F × List Nat :=
  let (nodes, node) := addChild nodes parents variableKey .var varName
  (nodes, [node])

def addKeyword (nodes : Nodes F) (parents : List Nat) (keyword : Bytes) : Nodes F × List Nat :=
  let (nodes, node) := addChild nodes parents keyword .keyword []
  (nodes, [node])

/-- The loop of `tmq_console_cmd_build`. A keyword whose first byte is the
identifier of a placeholder would be read as one. -/
def buildLoop (nodes : Nodes F) (parents : List Nat) : List Element → Option (Nodes F × List Nat)
  | [] => some (nodes, parents)
  | .opt name first others :: args =>
      let (nodes, parents) := nodes.addOption parents name (first :: others)
      buildLoop nodes parents args
  | .var name :: args =>
      let (nodes, parents) := nodes.addVariable parents name
      buildLoop nodes parents args
  | .keyword word :: args =>
      if word.head? = some 254 ∨ word.head? = some 255 then none
      else
        let (nodes, parents) := nodes.addKeyword parents word
        buildLoop nodes parents args

end Nodes

def tmqConsoleCmdBuild (nodes : Nodes F) (command : Command F) : Option (Nodes F) := do
  let (nodes, parents) ← nodes.buildLoop [0] command.pattern
  some { nodes with node := fun n =>
    if n ∈ parents then { nodes.node n with commandExec := some command.func } else nodes.node n }

/-- Several commands, as `init_commands` registers them. -/
def initCommands (commands : List (Command F)) : Option (Nodes F) :=
  commands.foldlM tmqConsoleCmdBuild tmqConsoleCmdInit

abbrev ArgsMap := Bytes → Option Bytes

/-- The loop of `tmq_console_cmd_parse`: the return value, the node where it
stops, and the arguments. -/
def parseLoop (nodes : Nodes F) (cur : Nat) (args : ArgsMap) : List Bytes → Int × Nat × ArgsMap
  | [] => (0, cur, args)
  | t :: tokens =>
      match ((nodes.node cur).next variableKey).or ((nodes.node cur).next t) with
      | none => (-1, cur, args)
      | some next =>
          parseLoop nodes next
            (if (nodes.node next).type = .keyword then args else set args (nodes.node next).name t)
            tokens

def tokensOf (cmdStr : Bytes) : List Bytes := ConfigFile.tmqStrSplit (cstr cmdStr) [32]

/-- The return value, and the function that runs with its arguments. -/
def tmqConsoleCmdParse (nodes : Nodes F) (cmdStr : Bytes) : Int × Option (F × ArgsMap) :=
  let (ret, cur, args) := parseLoop nodes 0 (fun _ => none) (tokensOf cmdStr)
  match (nodes.node cur).commandExec with
  | some commandExec => (ret, some (commandExec, args))
  | none => (-1, none)

/-! ### Patterns -/

/-- A token that the element stands for. -/
def Element.Accepts : Element → Bytes → Prop
  | .keyword word, t => t = word
  | .var _, _ => True
  | .opt _ first others, t => t ∈ first :: others

/-- The type and the name of the node for an element. -/
def Element.label : Element → NodeType × Bytes
  | .keyword _ => (.keyword, [])
  | .var name => (.var, name)
  | .opt name _ _ => (.opt, name)

def Element.IsVariable (e : Element) : Prop := e.label.1 = .var

/-- The argument that an element gives. -/
def Element.bind (e : Element) (t : Bytes) (args : ArgsMap) : ArgsMap :=
  if e.label.1 = .keyword then args else set args e.label.2 t

/-- The variables and options of a pattern bound to their tokens. -/
def bindings : List Element → List Bytes → ArgsMap → ArgsMap
  | e :: pattern, t :: tokens, args => bindings pattern tokens (e.bind t args)
  | _, _, args => args

/-- The tokens match the first elements of the pattern. -/
abbrev Starts (pattern : List Element) (tokens : List Bytes) : Prop :=
  BeginsWith Element.Accepts pattern tokens

/-- The whole line runs the command whose pattern it matches, and nothing where
there is none. -/
def Conforms (commands : List (Command F)) (line : Bytes) : Prop :=
  ∃ nodes, initCommands commands = some nodes ∧
    ((∃ command ∈ commands, List.Forall₂ Element.Accepts command.pattern (tokensOf line) ∧
        tmqConsoleCmdParse nodes line =
          (0, some (command.func, bindings command.pattern (tokensOf line) fun _ => none))) ∨
      (∀ command ∈ commands, ¬List.Forall₂ Element.Accepts command.pattern (tokensOf line)) ∧
        tmqConsoleCmdParse nodes line = (-1, none))

/-- The line goes on after the tokens of a whole command with a token that no
command goes on with. -/
def RunsOn (commands : List (Command F)) (tokens : List Bytes) : Prop :=
  ∃ before t after, tokens = before ++ t :: after ∧
    (∃ command ∈ commands, List.Forall₂ Element.Accepts command.pattern before) ∧
    ∀ command ∈ commands, ¬Starts command.pattern (before ++ [t])

/-- An element that is read as what it is. -/
def Element.Proper : Element → Prop
  | .keyword word => word ≠ variableKey ∧ word.head? ≠ some 254 ∧ word.head? ≠ some 255
  | .var _ => True
  | .opt _ first others => variableKey ∉ first :: others

/-- Commands that can be merged: where two of them are at the same position,
either both have a variable there or neither, and where they go on with the
same token, they have come from the same tokens and agree on what it is. -/
structure Regular (commands : List (Command F)) : Prop where
  proper : ∀ command ∈ commands, ∀ e ∈ command.pattern, e.Proper
  apart : ∀ c ∈ commands, ∀ d ∈ commands, ∀ tokens, Starts c.pattern tokens →
    Starts d.pattern tokens → ∀ e e', c.pattern[tokens.length]? = some e →
      d.pattern[tokens.length]? = some e' → (e.IsVariable ↔ e'.IsVariable)
  alike : ∀ c ∈ commands, ∀ d ∈ commands, ∀ tokens t, Starts c.pattern (tokens ++ [t]) →
    Starts d.pattern (tokens ++ [t]) →
      (∀ tokens', tokens'.length = tokens.length →
        (Starts c.pattern tokens' ↔ Starts d.pattern tokens')) ∧
      ∀ e e', c.pattern[tokens.length]? = some e → d.pattern[tokens.length]? = some e' →
        e.label = e'.label

-- both values of the option share the child `x`, which the second command extends
example :
    (initCommands [⟨0, [.opt (word "p") (word "a") [word "b"], .keyword (word "x")]⟩,
      ⟨1, [.keyword (word "b"), .keyword (word "x"), .keyword (word "y")]⟩]).map (fun nodes =>
        (tmqConsoleCmdParse nodes (word "a x y")).2.map Prod.fst) = some (some 1) := by
  decide

/-! ### The shell -/

inductive ShellFunction where
  | addNewUser
  | delUser
  | changeUserPwd
  | addAclRule
  | listAclRules
  | listSubscriptionOfUser
  | quit
  deriving DecidableEq, Repr

/-- `init_commands` of `tinymqtt_shell.c`. -/
def shellCommands : List (Command ShellFunction) :=
  [ ⟨.addNewUser, [.keyword (word "add"), .keyword (word "user"), .var (word "username"),
      .var (word "password")]⟩,
    ⟨.delUser, [.keyword (word "del"), .keyword (word "user"), .var (word "username")]⟩,
    ⟨.changeUserPwd, [.keyword (word "change"), .keyword (word "password"), .keyword (word "of"),
      .var (word "username"), .var (word "new_password")]⟩,
    ⟨.addAclRule, [.opt (word "permission") (word "allow") [word "deny"],
      .opt (word "rule_type") (word "user") [word "client_id", word "ip"], .var (word "who"),
      .opt (word "access") (word "sub") [word "pub", word "sub/pub"], .var (word "topic")]⟩,
    ⟨.listAclRules, [.keyword (word "ls"), .keyword (word "acl"), .keyword (word "rules")]⟩,
    ⟨.listSubscriptionOfUser, [.keyword (word "ls"), .keyword (word "sub"), .keyword (word "of"),
      .opt (word "filter_by") (word "user") [word "client_id"], .var (word "who")]⟩,
    ⟨.quit, [.keyword (word "quit")]⟩ ]

/-! ### The graph -/

/-- The keys of the edges for an element. -/
def Element.keys : Element → List Bytes
  | .keyword word => [word]
  | .var _ => [variableKey]
  | .opt _ first others => first :: others

def Element.slot (e : Element) : PatternGraph.Slot Bytes (NodeType × Bytes) := ⟨e.label, e.keys⟩

/-- The nodes as a graph. -/
def Nodes.graph (nodes : Nodes F) : PatternGraph.Graph Bytes (NodeType × Bytes) F :=
  { edges := fun n => (nodes.node n).next
    label := fun n => ((nodes.node n).type, (nodes.node n).name)
    value := fun n => (nodes.node n).commandExec
    size := nodes.size }

namespace Nodes

theorem graph_putNext (nodes : Nodes F) (parent : Nat) (key : Bytes) (child : Nat) :
    (nodes.putNext parent key child).graph = nodes.graph.share [parent] key child := by
  have hedges : (nodes.putNext parent key child).graph.edges
      = (nodes.graph.share [parent] key child).edges := by
    funext n k
    by_cases hn : n = parent
    · by_cases hk : key = k
      · simp [graph, putNext, PatternGraph.Graph.share, hn, hk]
      · simp [graph, putNext, PatternGraph.Graph.share, hn, FiniteMap.set_of_ne _ hk, Ne.symm hk]
    · simp [graph, putNext, PatternGraph.Graph.share, hn]
  have hlabel : (nodes.putNext parent key child).graph.label = nodes.graph.label := by
    funext n
    by_cases hn : n = parent <;> simp [graph, putNext, hn]
  have hvalue : (nodes.putNext parent key child).graph.value = nodes.graph.value := by
    funext n
    by_cases hn : n = parent <;> simp [graph, putNext, hn]
  exact PatternGraph.Graph.ext hedges hlabel hvalue rfl

theorem graph_putAll (nodes : Nodes F) (parents : List Nat) (key : Bytes) (child : Nat) :
    (nodes.putAll parents key child).graph = nodes.graph.share parents key child := by
  induction parents generalizing nodes with
  | nil => exact (PatternGraph.Graph.share_nil _ _ _).symm
  | cons parent parents ih =>
      change ((nodes.putNext parent key child).putAll parents key child).graph = _
      rw [ih, graph_putNext, PatternGraph.Graph.share_share]

theorem graph_alloc (nodes : Nodes F) (type : NodeType) (name : Bytes) :
    (nodes.alloc (.new type name)).graph = nodes.graph.alloc (type, name) := by
  apply PatternGraph.Graph.ext
  · funext n
    by_cases hn : n = nodes.size <;> simp [graph, alloc, PatternGraph.Graph.alloc, Node.new, hn]
  · funext n
    by_cases hn : n = nodes.size <;> simp [graph, alloc, PatternGraph.Graph.alloc, Node.new, hn]
  · funext n
    by_cases hn : n = nodes.size <;> simp [graph, alloc, PatternGraph.Graph.alloc, Node.new, hn]
  · rfl

theorem graph_addChild (nodes : Nodes F) (parents : List Nat) (key : Bytes) (type : NodeType)
    (name : Bytes) :
    ((nodes.addChild parents key type name).1.graph, (nodes.addChild parents key type name).2)
      = nodes.graph.link parents key (type, name) := by
  cases hchild : parents.findSome? fun parent => (nodes.node parent).next key with
  | some child =>
      have hedge : (parents.findSome? fun m => nodes.graph.edges m key) = some child := hchild
      simp only [addChild, PatternGraph.Graph.link, hchild, hedge, graph_putAll]
  | none =>
      have hedge : (parents.findSome? fun m => nodes.graph.edges m key) = none := hchild
      simp only [addChild, PatternGraph.Graph.link, hchild, hedge, graph_putAll, graph_alloc]
      rfl

theorem graph_addOne (nodes : Nodes F) (parents : List Nat) (key : Bytes) (type : NodeType)
    (name : Bytes) :
    ((nodes.addChild parents key type name).1.graph, [(nodes.addChild parents key type name).2])
      = PatternGraph.Graph.linkKeys parents (type, name) (nodes.graph, []) [key] := by
  have hadd := nodes.graph_addChild parents key type name
  change _ = ((nodes.graph.link parents key (type, name)).1,
    [(nodes.graph.link parents key (type, name)).2])
  rw [← hadd]

/-- The children for the values of an option. -/
theorem graph_addOption (nodes : Nodes F) (parents : List Nat) (name : Bytes)
    (optionsValues : List Bytes) :
    ((nodes.addOption parents name optionsValues).1.graph,
        (nodes.addOption parents name optionsValues).2)
      = PatternGraph.Graph.linkKeys parents (.opt, name) (nodes.graph, []) optionsValues := by
  suffices hloop : ∀ (values : List Bytes) (nodes : Nodes F) (curs : List Nat),
      ((values.foldl (fun (nodes, curs) op =>
          let (nodes, node) := addChild nodes parents op .opt name
          (nodes, curs ++ [node])) (nodes, curs)).1.graph,
        (values.foldl (fun (nodes, curs) op =>
          let (nodes, node) := addChild nodes parents op .opt name
          (nodes, curs ++ [node])) (nodes, curs)).2)
      = PatternGraph.Graph.linkKeys parents (.opt, name) (nodes.graph, curs) values from
    hloop optionsValues nodes []
  intro values
  induction values with
  | nil =>
      intro nodes curs
      rfl
  | cons value values ih =>
      intro nodes curs
      have hlink := nodes.graph_addChild parents value .opt name
      have hrest := ih (nodes.addChild parents value .opt name).1
        (curs ++ [(nodes.addChild parents value .opt name).2])
      refine hrest.trans ?_
      rw [PatternGraph.Graph.linkKeys, ← hlink]

/-- An element is added as its slot. -/
theorem buildLoop_cons {e : Element} (he : e.Proper) (nodes : Nodes F) (parents : List Nat)
    (pattern : List Element) :
    ∃ (next : Nodes F) (children : List Nat),
      nodes.buildLoop parents (e :: pattern) = next.buildLoop children pattern ∧
      (next.graph, children)
        = PatternGraph.Graph.linkKeys parents e.label (nodes.graph, []) e.keys := by
  cases e with
  | keyword word =>
      have hword : ¬(word.head? = some 254 ∨ word.head? = some 255) := not_or.mpr he.2
      refine ⟨_, _, ?_, nodes.graph_addOne parents word .keyword []⟩
      rw [buildLoop, if_neg hword]
      rfl
  | var name => exact ⟨_, _, rfl, nodes.graph_addOne parents variableKey .var name⟩
  | opt name first others => exact ⟨_, _, rfl, nodes.graph_addOption parents name (first :: others)⟩

/-- The loop of `tmq_console_cmd_build` links the slots of the pattern. -/
theorem graph_buildLoop {pattern : List Element} (hproper : ∀ e ∈ pattern, e.Proper)
    (nodes : Nodes F) (parents : List Nat) :
    ∃ (built : Nodes F) (children : List Nat),
      nodes.buildLoop parents pattern = some (built, children) ∧
      (built.graph, children) = nodes.graph.linkSlots parents (pattern.map Element.slot) := by
  induction pattern generalizing nodes parents with
  | nil => exact ⟨nodes, parents, rfl, rfl⟩
  | cons e pattern ih =>
      obtain ⟨he, hrest⟩ := List.forall_mem_cons.mp hproper
      obtain ⟨next, children, hnext, hgraph⟩ := buildLoop_cons he nodes parents pattern
      obtain ⟨built, last, hbuilt, hlast⟩ := ih hrest next children
      refine ⟨built, last, hnext.trans hbuilt, ?_⟩
      change _ = PatternGraph.Graph.linkSlots
        (PatternGraph.Graph.linkKeys parents e.label (nodes.graph, []) e.keys).1
        (PatternGraph.Graph.linkKeys parents e.label (nodes.graph, []) e.keys).2 _
      rw [hlast, ← hgraph]

end Nodes

/-- A command is added as its pattern of slots. -/
theorem graph_tmqConsoleCmdBuild {command : Command F}
    (hproper : ∀ e ∈ command.pattern, e.Proper) (nodes : Nodes F) :
    ∃ built, tmqConsoleCmdBuild nodes command = some built ∧
      built.graph = nodes.graph.addPattern (command.pattern.map Element.slot) command.func := by
  obtain ⟨built, parents, hbuilt, hgraph⟩ := Nodes.graph_buildLoop hproper nodes [0]
  refine ⟨_, by rw [tmqConsoleCmdBuild, hbuilt]; rfl, ?_⟩
  rw [PatternGraph.Graph.addPattern, ← hgraph]
  apply PatternGraph.Graph.ext
  · funext n
    by_cases hn : n ∈ parents <;> simp [Nodes.graph, PatternGraph.Graph.mark, hn]
  · funext n
    by_cases hn : n ∈ parents <;> simp [Nodes.graph, PatternGraph.Graph.mark, hn]
  · funext n
    by_cases hn : n ∈ parents <;> simp [Nodes.graph, PatternGraph.Graph.mark, hn]
  · rfl

end TinyMqtt.ConsoleCmd
