import Mathlib.Data.List.Chain
import Mathlib.Data.List.TakeWhile
import Mathlib.Tactic

/-!
The shunting-yard method for infix texts: two stacks, one of finished operands
and one of operators that wait for their right operand. An operator first
completes the waiting operators that bind at least as tightly as it does, down
to the innermost open parenthesis; a closing parenthesis completes them all and
takes the open parenthesis away. The end of the text is read like one more
closing parenthesis.
-/

namespace ShuntingYard

variable {α β ε ω : Type*}

inductive Token (α ω : Type*) where
  | operand (a : α)
  | binary (o : ω)
  | left
  | right
  deriving DecidableEq

inductive Entry (ω : Type*) where
  | op (o : ω)
  | paren
  deriving DecidableEq

@[ext]
structure Stacks (ε ω : Type*) where
  operands : List ε
  operators : List (Entry ω)

def Token.map (f : α → β) : Token α ω → Token β ω
  | .operand a => .operand (f a)
  | .binary o => .binary o
  | .left => .left
  | .right => .right

section Method

variable (prio : ω → Nat) (build : ω → ε → ε → ε)

/-- Completes the operators on the stack that bind at least at level `q`, down
to the innermost open parenthesis. It fails when an operand is missing. -/
def reduce (q : Nat) : List (Entry ω) → List ε → Option (Stacks ε ω)
  | [], es => some ⟨es, []⟩
  | .paren :: ops, es => some ⟨es, .paren :: ops⟩
  | .op o :: ops, es =>
      if q ≤ prio o then
        match es with
        | right :: left :: es => reduce q ops (build o left right :: es)
        | _ => none
      else some ⟨es, .op o :: ops⟩

def dropParen : List (Entry ω) → List (Entry ω)
  | .paren :: ops => ops
  | ops => ops

def step (s : Stacks ε ω) : Token ε ω → Option (Stacks ε ω)
  | .operand e => some { s with operands := e :: s.operands }
  | .left => some { s with operators := .paren :: s.operators }
  | .binary o => (reduce prio build (prio o) s.operators s.operands).map fun s =>
      { s with operators := .op o :: s.operators }
  | .right => (reduce prio build 0 s.operators s.operands).map fun s =>
      { s with operators := dropParen s.operators }

def run (s : Stacks ε ω) (ts : List (Token ε ω)) : Option (Stacks ε ω) :=
  ts.foldlM (step prio build) s

variable {prio build}

@[simp] theorem run_nil (s : Stacks ε ω) : run prio build s [] = some s := rfl

@[simp] theorem run_cons (s : Stacks ε ω) (t : Token ε ω) (ts : List (Token ε ω)) :
    run prio build s (t :: ts) = (step prio build s t).bind (run prio build · ts) := rfl

@[simp] theorem run_singleton (s : Stacks ε ω) (t : Token ε ω) :
    run prio build s [t] = step prio build s t := by
  rw [run_cons]
  exact Option.bind_fun_some _

@[simp] theorem run_append (s : Stacks ε ω) (ts us : List (Token ε ω)) :
    run prio build s (ts ++ us) = (run prio build s ts).bind (run prio build · us) :=
  List.foldlM_append

end Method

/-! ### Trees -/

inductive Tree (α ω : Type*) where
  | leaf (a : α)
  | node (o : ω) (left right : Tree α ω)

namespace Tree

def map (f : α → β) : Tree α ω → Tree β ω
  | leaf a => leaf (f a)
  | node o l r => node o (l.map f) (r.map f)

/-- What the method makes of the tree when its operands are leaves. -/
def value (build : ω → ε → ε → ε) : Tree ε ω → ε
  | leaf e => e
  | node o l r => build o (l.value build) (r.value build)

end Tree

/-- The tokens write the tree with parentheses at least where an operator at
level `q` or the operators around a subtree ask for them. Operators of one
level group to the left, so a right operand needs a higher level. -/
inductive Renders (prio : ω → Nat) : Nat → Tree α ω → List (Token α ω) → Prop
  | leaf (q : Nat) (a : α) : Renders prio q (.leaf a) [.operand a]
  | parens (q : Nat) {t : Tree α ω} {ts : List (Token α ω)} :
      Renders prio 0 t ts → Renders prio q t (.left :: (ts ++ [.right]))
  | node {q : Nat} {o : ω} {l r : Tree α ω} {ls rs : List (Token α ω)} (hlevel : q ≤ prio o) :
      Renders prio (prio o) l ls → Renders prio (prio o + 1) r rs →
      Renders prio q (.node o l r) (ls ++ .binary o :: rs)

def Tree.fullTokens : Tree α ω → List (Token α ω)
  | leaf a => [.operand a]
  | node o l r => .left :: ((l.fullTokens ++ .binary o :: r.fullTokens) ++ [.right])

def Tree.minimalTokens (prio : ω → Nat) (q : Nat) : Tree α ω → List (Token α ω)
  | leaf a => [.operand a]
  | node o l r =>
      let tokens := l.minimalTokens prio (prio o) ++ .binary o :: r.minimalTokens prio (prio o + 1)
      if q ≤ prio o then tokens else .left :: (tokens ++ [.right])

theorem Tree.renders_fullTokens (prio : ω → Nat) (t : Tree α ω) (q : Nat) :
    Renders prio q t t.fullTokens := by
  induction t generalizing q with
  | leaf a => exact .leaf q a
  | node o l r ihl ihr => exact .parens q (.node (Nat.zero_le _) (ihl _) (ihr _))

theorem Tree.renders_minimalTokens (prio : ω → Nat) (t : Tree α ω) (q : Nat) :
    Renders prio q t (t.minimalTokens prio q) := by
  induction t generalizing q with
  | leaf a => exact .leaf q a
  | node o l r ihl ihr =>
      rw [minimalTokens]
      split
      · rename_i hlevel
        exact .node hlevel (ihl _) (ihr _)
      · exact .parens q (.node (Nat.zero_le _) (ihl _) (ihr _))

theorem Renders.map {prio : ω → Nat} {q : Nat} {t : Tree α ω} {ts : List (Token α ω)}
    (h : Renders prio q t ts) (f : α → β) :
    Renders prio q (t.map f) (ts.map (Token.map f)) := by
  induction h with
  | leaf q a => exact .leaf q (f a)
  | parens q _ ih =>
      rw [List.map_cons, List.map_append]
      exact .parens q ih
  | node hlevel _ _ ihl ihr =>
      rw [List.map_append, List.map_cons]
      exact .node hlevel ihl ihr

section Correctness

variable {prio : ω → Nat} {build : ω → ε → ε → ε}

/-- No waiting operator above the innermost open parenthesis binds at level `q`. -/
def Blocks (prio : ω → Nat) (q : Nat) : List (Entry ω) → Prop
  | .op o :: _ => prio o < q
  | _ => True

theorem Blocks.mono {q q' : Nat} {ops : List (Entry ω)} (h : Blocks prio q ops) (hle : q ≤ q') :
    Blocks prio q' ops := by
  match ops with
  | [] => trivial
  | .paren :: _ => trivial
  | .op _ :: _ => exact Nat.lt_of_lt_of_le h hle

theorem reduce_op {q : Nat} {o : ω} (hlevel : q ≤ prio o) (ops : List (Entry ω)) (l r : ε)
    (es : List ε) :
    reduce prio build q (.op o :: ops) (r :: l :: es)
      = reduce prio build q ops (build o l r :: es) := by
  rw [reduce, if_pos hlevel]

theorem reduce_op_of_lt {q : Nat} {o : ω} (hlevel : prio o < q) (ops : List (Entry ω))
    (es : List ε) : reduce prio build q (.op o :: ops) es = some ⟨es, .op o :: ops⟩ := by
  unfold reduce
  exact if_neg (Nat.not_le.mpr hlevel)

theorem reduce_op_of_short {q : Nat} {o : ω} (hlevel : q ≤ prio o) (ops : List (Entry ω))
    {es : List ε} (hshort : es.length < 2) :
    reduce prio build q (.op o :: ops) es = none := by
  match es with
  | [] => rw [reduce, if_pos hlevel]
          simp
  | [e] => rw [reduce, if_pos hlevel]
           simp
  | _ :: _ :: _ => simp at hshort

theorem Blocks.reduce {q : Nat} {ops : List (Entry ω)} (h : Blocks prio q ops) (es : List ε) :
    ShuntingYard.reduce prio build q ops es = some ⟨es, ops⟩ := by
  match ops with
  | [] => rfl
  | .paren :: _ => rfl
  | .op _ :: _ => exact reduce_op_of_lt h _ es

/-- After the tokens of a tree the stacks may still hold operators of the tree,
but whatever comes next at the tree's level completes them to its value. -/
theorem Renders.run {q : Nat} {t : Tree ε ω} {ts : List (Token ε ω)} (h : Renders prio q t ts)
    {s : Stacks ε ω} (hblocks : Blocks prio q s.operators) :
    ∃ s', ShuntingYard.run prio build s ts = some s' ∧
      ∀ q' ≤ q, reduce prio build q' s'.operators s'.operands
        = reduce prio build q' s.operators (t.value build :: s.operands) := by
  induction h generalizing s with
  | leaf q e => exact ⟨{ s with operands := e :: s.operands }, rfl, fun _ _ => rfl⟩
  | @parens q t ts _ ih =>
      obtain ⟨inner, hrun, hinner⟩ := ih (s := { s with operators := .paren :: s.operators }) trivial
      have hclosed := hinner 0 le_rfl
      refine ⟨{ operands := t.value build :: s.operands, operators := s.operators }, ?_,
        fun _ _ => rfl⟩
      rw [run_cons, step, Option.bind_some, run_append, hrun, Option.bind_some, run_singleton,
        step, hclosed]
      rfl
  | @node q o l r ls rs hlevel _ _ ihl ihr =>
      obtain ⟨afterLeft, hrunLeft, hleft⟩ := ihl (hblocks.mono hlevel)
      have hshift : reduce prio build (prio o) afterLeft.operators afterLeft.operands
          = some ⟨l.value build :: s.operands, s.operators⟩ := by
        rw [hleft (prio o) le_rfl]
        exact (hblocks.mono hlevel).reduce _
      let shifted : Stacks ε ω :=
        { operands := l.value build :: s.operands, operators := .op o :: s.operators }
      have hopen : Blocks prio (prio o + 1) shifted.operators := Nat.lt_succ_self (prio o)
      obtain ⟨afterRight, hrunRight, hright⟩ := ihr hopen
      refine ⟨afterRight, ?_, ?_⟩
      · rw [run_append, hrunLeft, Option.bind_some, run_cons, step, hshift]
        exact hrunRight
      · intro q' hq'
        rw [hright q' (by omega)]
        exact reduce_op (hq'.trans hlevel) s.operators _ _ s.operands

/-- The tokens of a tree and the end of the text leave the tree's value alone on
the operand stack and nothing on the operator stack. -/
theorem Renders.run_end {t : Tree ε ω} {ts : List (Token ε ω)} (h : Renders prio 0 t ts)
    (build : ω → ε → ε → ε) :
    ShuntingYard.run prio build ⟨[], []⟩ (ts ++ [.right]) = some ⟨[t.value build], []⟩ := by
  have hblocks : Blocks prio 0 (⟨[], []⟩ : Stacks ε ω).operators := trivial
  obtain ⟨s, hrun, hreduce⟩ : ∃ s, ShuntingYard.run prio build ⟨[], []⟩ ts = some s ∧
      ∀ q' ≤ 0, reduce prio build q' s.operators s.operands
        = reduce prio build q' [] [t.value build] := h.run hblocks
  rw [run_append, hrun, Option.bind_some, run_singleton, step, hreduce 0 le_rfl]
  rfl

end Correctness

/-! ### Counting -/

section Counting

def Entry.isOp : Entry ω → Bool
  | .op _ => true
  | .paren => false

def Token.isOperand : Token α ω → Bool
  | .operand _ => true
  | _ => false

def Token.isBinary : Token α ω → Bool
  | .binary _ => true
  | _ => false

/-- An operator that what comes at level `q` completes. -/
def Entry.closes (prio : ω → Nat) (q : Nat) : Entry ω → Bool
  | .op o => q ≤ prio o
  | .paren => false

def Token.shift (prio : ω → Nat) (ops : List (Entry ω)) : Token α ω → List (Entry ω)
  | .operand _ => ops
  | .left => .paren :: ops
  | .binary o => .op o :: ops.dropWhile (Entry.closes prio (prio o))
  | .right => dropParen (ops.dropWhile (Entry.closes prio 0))

def Token.completes (prio : ω → Nat) (ops : List (Entry ω)) : Token α ω → Nat
  | .binary o => (ops.takeWhile (Entry.closes prio (prio o))).length
  | .right => (ops.takeWhile (Entry.closes prio 0)).length
  | _ => 0

/-- The operators of a text that still wait for the end of their right operand
and the parentheses still open, innermost first. -/
def waiting (prio : ω → Nat) (ts : List (Token α ω)) : List (Entry ω) :=
  ts.foldl (Token.shift prio) []

def operandsIn (ts : List (Token α ω)) : Nat := ts.countP Token.isOperand

/-- The binary operators of a text whose right operand is over. -/
def closedIn (prio : ω → Nat) (ts : List (Token α ω)) : Nat :=
  ts.countP Token.isBinary - (waiting prio ts).countP Entry.isOp

/-- Wherever operators of the text are completed, it has more operands than
completed operators. -/
def Supplied (prio : ω → Nat) (ts : List (Token α ω)) : Prop :=
  ∀ part, part <+: ts → closedIn prio part = 0 ∨ closedIn prio part < operandsIn part

variable (prio : ω → Nat) (build : ω → ε → ε → ε)

@[simp] theorem waiting_concat (ts : List (Token α ω)) (t : Token α ω) :
    waiting prio (ts ++ [t]) = t.shift prio (waiting prio ts) := by
  rw [waiting, List.foldl_append]
  rfl

theorem operandsIn_concat (ts : List (Token α ω)) (t : Token α ω) :
    operandsIn (ts ++ [t]) = operandsIn ts + if t.isOperand then 1 else 0 := by
  rw [operandsIn, List.countP_append, List.countP_singleton]
  rfl

theorem countP_isOp_dropParen (ops : List (Entry ω)) :
    (dropParen ops).countP Entry.isOp = ops.countP Entry.isOp := by
  match ops with
  | [] => rfl
  | .paren :: _ => rfl
  | .op _ :: _ => rfl

theorem countP_isOp_dropWhile (q : Nat) (ops : List (Entry ω)) :
    (ops.dropWhile (Entry.closes prio q)).countP Entry.isOp
        + (ops.takeWhile (Entry.closes prio q)).length
      = ops.countP Entry.isOp := by
  induction ops with
  | nil => rfl
  | cons entry ops ih =>
      cases entry with
      | paren => rfl
      | op o =>
          by_cases hq : q ≤ prio o
          · simp only [Entry.closes, hq, decide_true, List.dropWhile_cons_of_pos,
              List.takeWhile_cons_of_pos, List.length_cons, List.countP_cons, Entry.isOp, if_true]
            omega
          · simp [Entry.closes, hq]

/-- A token turns completed operators into closed ones; a binary operator waits
itself afterwards. -/
theorem countP_isOp_shift (ops : List (Entry ω)) (t : Token α ω) :
    (t.shift prio ops).countP Entry.isOp + t.completes prio ops
      = ops.countP Entry.isOp + if t.isBinary then 1 else 0 := by
  cases t with
  | operand a => rfl
  | left => rfl
  | binary o =>
      have hcount := countP_isOp_dropWhile prio (prio o) ops
      simp only [Token.shift, Token.completes, Token.isBinary, List.countP_cons, Entry.isOp,
        if_true]
      omega
  | right =>
      have hcount := countP_isOp_dropWhile prio 0 ops
      rw [Token.shift, countP_isOp_dropParen]
      exact hcount

theorem countP_isOp_waiting_le (ts : List (Token α ω)) :
    (waiting prio ts).countP Entry.isOp ≤ ts.countP Token.isBinary := by
  induction ts using List.reverseRecOn with
  | nil => exact le_rfl
  | append_singleton ts t ih =>
      have hshift := countP_isOp_shift prio (waiting prio ts) t
      rw [waiting_concat, List.countP_append, List.countP_singleton]
      omega

theorem closedIn_concat (ts : List (Token α ω)) (t : Token α ω) :
    closedIn prio (ts ++ [t]) = closedIn prio ts + t.completes prio (waiting prio ts) := by
  have hshift := countP_isOp_shift prio (waiting prio ts) t
  have hle := countP_isOp_waiting_le prio ts
  rw [closedIn, closedIn, waiting_concat, List.countP_append, List.countP_singleton]
  omega

theorem supplied_concat (ts : List (Token α ω)) (t : Token α ω) :
    Supplied prio (ts ++ [t]) ↔ Supplied prio ts ∧
      (closedIn prio (ts ++ [t]) = 0 ∨ closedIn prio (ts ++ [t]) < operandsIn (ts ++ [t])) := by
  constructor
  · intro h
    exact ⟨fun part hpart => h part (hpart.trans (List.prefix_append ts [t])), h _ List.prefix_rfl⟩
  · rintro ⟨hts, hlast⟩ part hpart
    rcases List.prefix_concat_iff.mp hpart with rfl | hpart
    · exact hlast
    · exact hts part hpart

/-- A reduction succeeds exactly when an operand is left after it, if it
completes anything at all. -/
theorem reduce_spec (q : Nat) (ops : List (Entry ω)) (es : List ε) :
    match reduce prio build q ops es with
    | some s => s.operators = ops.dropWhile (Entry.closes prio q) ∧
        s.operands.length + (ops.takeWhile (Entry.closes prio q)).length = es.length ∧
        ((ops.takeWhile (Entry.closes prio q)).length = 0 ∨ 0 < s.operands.length)
    | none => es.length ≤ (ops.takeWhile (Entry.closes prio q)).length ∧
        0 < (ops.takeWhile (Entry.closes prio q)).length := by
  induction ops generalizing es with
  | nil => simp [reduce]
  | cons entry ops ih =>
      cases entry with
      | paren => simp [reduce, Entry.closes]
      | op o =>
          by_cases hq : q ≤ prio o
          · match es with
            | [] => simp [reduce, hq, Entry.closes]
            | [e] => simp [reduce, hq, Entry.closes]
            | r :: l :: es =>
                have hrest := ih (build o l r :: es)
                rw [reduce_op hq]
                simp only [Entry.closes, hq, decide_true, List.dropWhile_cons_of_pos,
                  List.takeWhile_cons_of_pos, List.length_cons]
                cases hreduce : reduce prio build q ops (build o l r :: es) with
                | some s =>
                    simp only [hreduce, List.length_cons] at hrest
                    obtain ⟨hops, hlength, hleft⟩ := hrest
                    refine ⟨hops, by omega, by omega⟩
                | none =>
                    simp only [hreduce, List.length_cons] at hrest
                    omega
          · simp [reduce, hq, Entry.closes]

/-- What a token does that completes the operators at level `q`, whatever it
then makes of the stack that is left. -/
theorem reduce_map_spec (q : Nat) (s : Stacks ε ω) (rest : List (Entry ω) → List (Entry ω)) :
    match (reduce prio build q s.operators s.operands).map fun s =>
        { s with operators := rest s.operators } with
    | some s' => s'.operators = rest (s.operators.dropWhile (Entry.closes prio q)) ∧
        s'.operands.length + (s.operators.takeWhile (Entry.closes prio q)).length
          = s.operands.length ∧
        ((s.operators.takeWhile (Entry.closes prio q)).length = 0 ∨ 0 < s'.operands.length)
    | none => s.operands.length ≤ (s.operators.takeWhile (Entry.closes prio q)).length ∧
        0 < (s.operators.takeWhile (Entry.closes prio q)).length := by
  have hreduce := reduce_spec prio build q s.operators s.operands
  cases hresult : reduce prio build q s.operators s.operands with
  | some s' =>
      rw [hresult] at hreduce
      obtain ⟨hops, hlength, hleft⟩ := hreduce
      exact ⟨congrArg rest hops, hlength, hleft⟩
  | none =>
      rw [hresult] at hreduce
      exact hreduce

theorem step_spec (s : Stacks ε ω) (t : Token ε ω) :
    match step prio build s t with
    | some s' => s'.operators = t.shift prio s.operators ∧
        s'.operands.length + t.completes prio s.operators
          = s.operands.length + (if t.isOperand then 1 else 0) ∧
        (t.completes prio s.operators = 0 ∨ 0 < s'.operands.length)
    | none => s.operands.length ≤ t.completes prio s.operators ∧
        0 < t.completes prio s.operators := by
  cases t with
  | operand e => exact ⟨rfl, rfl, .inl rfl⟩
  | left => exact ⟨rfl, rfl, .inl rfl⟩
  | binary o => exact reduce_map_spec prio build (prio o) s (.op o :: ·)
  | right => exact reduce_map_spec prio build 0 s dropParen

/-- An operand completes no operator. -/
theorem isOperand_of_completes {ops : List (Entry ω)} {t : Token α ω}
    (h : 0 < t.completes prio ops) : t.isOperand = false := by
  cases t with
  | operand a => exact absurd h (Nat.lt_irrefl 0)
  | binary o => rfl
  | left => rfl
  | right => rfl

/-- The method gets through a text exactly when the text is supplied with
operands; the operand stack then has those that no completed operator took. -/
theorem run_spec (ts : List (Token ε ω)) :
    match run prio build ⟨[], []⟩ ts with
    | some s => Supplied prio ts ∧ s.operators = waiting prio ts ∧
        s.operands.length + closedIn prio ts = operandsIn ts
    | none => ¬Supplied prio ts := by
  induction ts using List.reverseRecOn with
  | nil =>
      refine ⟨?_, rfl, rfl⟩
      intro part hpart
      rw [List.prefix_nil.mp hpart]
      exact .inl rfl
  | append_singleton ts t ih =>
      rw [run_append]
      cases hrun : run prio build ⟨[], []⟩ ts with
      | none =>
          rw [hrun] at ih
          intro hsupplied
          exact ih ((supplied_concat prio ts t).mp hsupplied).1
      | some s =>
          rw [hrun] at ih
          obtain ⟨hsupplied, hops, hlength⟩ := ih
          have hstep := step_spec prio build s t
          have hbefore := hsupplied ts List.prefix_rfl
          rw [Option.bind_some, run_singleton]
          rw [hops] at hstep
          cases hnext : step prio build s t with
          | some s' =>
              rw [hnext] at hstep
              obtain ⟨hops', hlength', hleft⟩ := hstep
              refine ⟨(supplied_concat prio ts t).mpr ⟨hsupplied, ?_⟩, ?_, ?_⟩
              · rw [closedIn_concat, operandsIn_concat]
                omega
              · rw [waiting_concat]
                exact hops'
              · rw [closedIn_concat, operandsIn_concat]
                omega
          | none =>
              rw [hnext] at hstep
              obtain ⟨hshort, hcompletes⟩ := hstep
              have hkind := isOperand_of_completes prio hcompletes
              intro hall
              have hlast := ((supplied_concat prio ts t).mp hall).2
              rw [closedIn_concat, operandsIn_concat, hkind] at hlast
              simp only [Bool.false_eq_true, if_false] at hlast
              omega

theorem run_isSome_iff (ts : List (Token ε ω)) :
    (run prio build ⟨[], []⟩ ts).isSome ↔ Supplied prio ts := by
  have hspec := run_spec prio build ts
  cases hrun : run prio build ⟨[], []⟩ ts with
  | some s =>
      rw [hrun] at hspec
      exact iff_of_true rfl hspec.1
  | none =>
      rw [hrun] at hspec
      exact iff_of_false (by simp) hspec

theorem operands_of_run {ts : List (Token ε ω)} {s : Stacks ε ω}
    (h : run prio build ⟨[], []⟩ ts = some s) :
    s.operands.length + closedIn prio ts = operandsIn ts := by
  have hspec := run_spec prio build ts
  rw [h] at hspec
  exact hspec.2.2

end Counting

/-! ### Well-formed texts -/

inductive WellFormed : List (Token α ω) → Prop
  | operand (a : α) : WellFormed [.operand a]
  | parens {ts : List (Token α ω)} : WellFormed ts → WellFormed (.left :: (ts ++ [.right]))
  | binary {ls rs : List (Token α ω)} (o : ω) :
      WellFormed ls → WellFormed rs → WellFormed (ls ++ .binary o :: rs)

theorem Renders.wellFormed {prio : ω → Nat} {q : Nat} {t : Tree α ω} {ts : List (Token α ω)}
    (h : Renders prio q t ts) : WellFormed ts := by
  induction h with
  | leaf q a => exact .operand a
  | parens q _ ih => exact .parens ih
  | node _ _ _ ihl ihr => exact .binary _ ihl ihr

theorem WellFormed.map {ts : List (Token α ω)} (h : WellFormed ts) (f : α → β) :
    WellFormed (ts.map (Token.map f)) := by
  induction h with
  | operand a => exact .operand (f a)
  | parens _ ih =>
      rw [List.map_cons, List.map_append]
      exact .parens ih
  | binary o _ _ ihl ihr =>
      rw [List.map_append, List.map_cons]
      exact .binary o ihl ihr

def Token.Apart (t u : Token α ω) : Prop :=
  ¬(t.isOperand ∧ u.isOperand) ∧ ¬(t.isBinary ∧ u.isBinary)

/-- A well-formed text neither starts nor ends with a binary operator, and its
neighbours are of different kinds. -/
structure Edges (ts : List (Token α ω)) : Prop where
  chain : ts.IsChain Token.Apart
  first : ∀ t ∈ ts.head?, t.isBinary = false
  last : ∀ t ∈ ts.getLast?, t.isBinary = false

theorem Edges.parens {ts : List (Token α ω)} (h : Edges ts) :
    Edges (.left :: (ts ++ [.right])) where
  chain := by
    apply List.isChain_cons.mpr
    constructor
    · intro t _
      constructor <;> rintro ⟨hleft, _⟩ <;> cases hleft
    · apply List.isChain_append.mpr
      refine ⟨h.chain, List.isChain_singleton _, ?_⟩
      intro t _ u hu
      obtain rfl : Token.right = u := Option.some.inj hu
      constructor <;> rintro ⟨_, hright⟩ <;> cases hright
  first := by
    intro t ht
    obtain rfl : Token.left = t := Option.some.inj ht
    rfl
  last := by
    intro t ht
    rw [← List.cons_append, List.getLast?_concat] at ht
    obtain rfl : Token.right = t := Option.some.inj ht
    rfl

theorem Edges.binary {ls rs : List (Token α ω)} (hl : Edges ls) (hr : Edges rs) (o : ω)
    (hls : ls ≠ []) (hrs : rs ≠ []) : Edges (ls ++ .binary o :: rs) where
  chain := by
    apply List.isChain_append.mpr
    refine ⟨hl.chain, List.isChain_cons.mpr ⟨?_, hr.chain⟩, ?_⟩
    · intro t ht
      refine ⟨by simp [Token.isOperand], ?_⟩
      rw [hr.first t ht]
      simp
    · intro t ht u hu
      obtain rfl : Token.binary o = u := Option.some.inj hu
      refine ⟨by simp [Token.isOperand], ?_⟩
      rw [hl.last t ht]
      simp
  first := by
    intro t ht
    rw [List.head?_append_of_ne_nil _ hls] at ht
    exact hl.first t ht
  last := by
    intro t ht
    rw [List.getLast?_append_of_ne_nil _ (by simp), List.getLast?_cons_of_ne_nil hrs] at ht
    exact hr.last t ht

theorem WellFormed.ne_nil {ts : List (Token α ω)} (h : WellFormed ts) : ts ≠ [] := by
  cases h <;> simp

theorem WellFormed.edges {ts : List (Token α ω)} (h : WellFormed ts) : Edges ts := by
  induction h with
  | operand a =>
      refine ⟨List.isChain_singleton _, ?_, ?_⟩ <;>
      · intro t ht
        obtain rfl : Token.operand a = t := Option.some.inj ht
        rfl
  | parens _ ih => exact ih.parens
  | binary o hls hrs ihl ihr => exact ihl.binary ihr o hls.ne_nil hrs.ne_nil

section Accepting

def depth (ops : List (Entry ω)) : Nat := ops.countP fun entry => !entry.isOp

/-- The operand stack has `n` operands that no waiting operator has taken as
its left one. -/
def Stacks.Spare (s : Stacks ε ω) (n : Nat) : Prop :=
  s.operands.length = s.operators.countP Entry.isOp + n

variable (prio : ω → Nat) (build : ω → ε → ε → ε)

theorem depth_dropWhile (q : Nat) (ops : List (Entry ω)) :
    depth (ops.dropWhile (Entry.closes prio q)) = depth ops := by
  induction ops with
  | nil => rfl
  | cons entry ops ih =>
      cases entry with
      | paren => rfl
      | op o =>
          by_cases hq : q ≤ prio o
          · rw [List.dropWhile_cons_of_pos (by simpa [Entry.closes] using hq), ih]
            simp [depth, Entry.isOp]
          · rw [List.dropWhile_cons_of_neg (by simpa [Entry.closes] using hq)]

/-- A closing parenthesis finds an open one on top, if any is open. -/
theorem depth_shift_right (ops : List (Entry ω)) :
    depth ((Token.right : Token α ω).shift prio ops) = depth ops - 1 := by
  induction ops with
  | nil => rfl
  | cons entry ops ih =>
      cases entry with
      | paren => simp [Token.shift, Entry.closes, dropParen, depth, Entry.isOp]
      | op o =>
          have hskip : (Token.right : Token α ω).shift prio (.op o :: ops)
              = (Token.right : Token α ω).shift prio ops := by
            rw [Token.shift, List.dropWhile_cons_of_pos (by simp [Entry.closes])]
            rfl
          rw [hskip, ih]
          simp [depth, Entry.isOp]

theorem completes_le (ops : List (Entry ω)) (t : Token α ω) :
    t.completes prio ops ≤ ops.countP Entry.isOp := by
  cases t with
  | operand a => exact Nat.zero_le _
  | left => exact Nat.zero_le _
  | binary o =>
      have hcount := countP_isOp_dropWhile prio (prio o) ops
      rw [Token.completes]
      omega
  | right =>
      have hcount := countP_isOp_dropWhile prio 0 ops
      rw [Token.completes]
      omega

/-- With an operand to spare, or nothing to complete, a token goes through. -/
theorem Stacks.Spare.step {s : Stacks ε ω} {n : Nat} (h : s.Spare n) (t : Token ε ω) (m : Nat)
    (hready : 0 < n ∨ t.completes prio s.operators = 0)
    (hm : m + (if t.isBinary then 1 else 0) = n + if t.isOperand then 1 else 0) :
    ∃ s', ShuntingYard.step prio build s t = some s' ∧ s'.operators = t.shift prio s.operators ∧
      s'.Spare m := by
  have hstep := step_spec prio build s t
  have hshift := countP_isOp_shift prio s.operators t
  have hle := completes_le prio s.operators t
  have hspare : s.operands.length = s.operators.countP Entry.isOp + n := h
  cases hnext : ShuntingYard.step prio build s t with
  | some s' =>
      rw [hnext] at hstep
      obtain ⟨hops, hlength, -⟩ := hstep
      refine ⟨s', rfl, hops, ?_⟩
      rw [Stacks.Spare, hops]
      omega
  | none =>
      rw [hnext] at hstep
      omega

theorem WellFormed.run {ts : List (Token ε ω)} (h : WellFormed ts) {s : Stacks ε ω}
    (hs : s.Spare 0) :
    ∃ s', ShuntingYard.run prio build s ts = some s' ∧ s'.Spare 1 ∧
      depth s'.operators = depth s.operators := by
  induction h generalizing s with
  | operand e =>
      obtain ⟨s', hstep, hops, hspare⟩ := hs.step prio build (.operand e) 1 (.inr rfl) rfl
      exact ⟨s', hstep, hspare, by rw [hops]; rfl⟩
  | @parens ts _ ih =>
      obtain ⟨opened, hopen, hops, hspare⟩ := hs.step prio build .left 0 (.inr rfl) rfl
      obtain ⟨inner, hrun, hinner, hdepth⟩ := ih hspare
      obtain ⟨s', hclose, hops', hspare'⟩ := hinner.step prio build .right 1 (.inl Nat.one_pos) rfl
      refine ⟨s', ?_, hspare', ?_⟩
      · rw [run_cons, hopen, Option.bind_some, run_append, hrun, Option.bind_some, run_singleton,
          hclose]
      · rw [hops', depth_shift_right, hdepth, hops]
        simp [Token.shift, depth, Entry.isOp]
  | @binary ls rs o _ _ ihl ihr =>
      obtain ⟨afterLeft, hleft, hspareLeft, hdepthLeft⟩ := ihl hs
      obtain ⟨shifted, hshift, hops, hspare⟩ := hspareLeft.step prio build
        (.binary o) 0 (.inl Nat.one_pos) rfl
      obtain ⟨s', hright, hspare', hdepth'⟩ := ihr hspare
      refine ⟨s', ?_, hspare', ?_⟩
      · rw [run_append, hleft, Option.bind_some, run_cons, hshift]
        exact hright
      · rw [hdepth', hops, ← hdepthLeft]
        exact depth_dropWhile prio (prio o) afterLeft.operators

/-- At the end of a well-formed text one operand is left and no operator. -/
theorem WellFormed.run_end {ts : List (Token ε ω)} (h : WellFormed ts) :
    ∃ e, ShuntingYard.run prio build ⟨[], []⟩ (ts ++ [.right]) = some ⟨[e], []⟩ := by
  have hstart : (⟨[], []⟩ : Stacks ε ω).Spare 0 := rfl
  obtain ⟨s, hrun, hspare, hdepth⟩ := h.run prio build hstart
  obtain ⟨s', hclose, hops, hspare'⟩ := hspare.step prio build .right 1 (.inl Nat.one_pos) rfl
  have hnone : s'.operators = [] := by
    have hall : s.operators.dropWhile (Entry.closes prio 0) = [] := by
      apply List.dropWhile_eq_nil_iff.mpr
      intro entry hentry
      cases entry with
      | op o => simp [Entry.closes]
      | paren => exact absurd hdepth (Nat.ne_of_gt (List.countP_pos_iff.mpr ⟨_, hentry, rfl⟩))
    rw [hops, Token.shift, hall]
    rfl
  rw [Stacks.Spare, hnone] at hspare'
  obtain ⟨e, he⟩ := List.length_eq_one_iff.mp hspare'
  refine ⟨e, ?_⟩
  rw [run_append, hrun, Option.bind_some, run_singleton, hclose]
  exact congrArg some (Stacks.ext he hnone)

end Accepting

end ShuntingYard
