import TinyMqtt.Lib.ShuntingYard
import TinyMqtt.Rule.Parser

/-!
The parser's loop in two steps: where in the text it stops to read something,
and what the two stacks do with what it reads there. On what it reads the
stacks are those of the shunting-yard method.
-/

namespace TinyMqtt

open ShuntingYard (Token Entry Stacks)

inductive BinaryOp where
  | eq | gt | gte | lt | lte | and | or
  deriving DecidableEq, Repr

namespace BinaryOp

def info : BinaryOp → OperatorInfo
  | eq => ⟨.eq, 3⟩
  | gt => ⟨.gt, 3⟩
  | gte => ⟨.gte, 3⟩
  | lt => ⟨.lt, 3⟩
  | lte => ⟨.lte, 3⟩
  | and => ⟨.and, 2⟩
  | or => ⟨.or, 2⟩

def name : BinaryOp → Bytes
  | eq => [61, 61]
  | gt => [62]
  | gte => [62, 61]
  | lt => [60]
  | lte => [60, 61]
  | and => [38, 38]
  | or => [124, 124]

def priority (o : BinaryOp) : Nat := o.info.priority

def build (o : BinaryOp) (left right : FilterExpr) : FilterExpr :=
  (tmqBinaryExprNew o.info.op o.info.priority).link left right

theorem two_le_priority (o : BinaryOp) : 2 ≤ o.priority := by
  cases o <;> decide

theorem info_op_ne_lp (o : BinaryOp) : o.info.op ≠ .lp := by
  cases o <;> decide

end BinaryOp

namespace RuleParser

/-! ### Where the loop stops -/

/-- What is left of the text where the loop stops, with a bound on the stops. -/
def stopsWithin : Nat → Bytes → List Bytes
  | 0, _ => []
  | fuel + 1, ptr =>
      let ptr := skipBlank ptr
      if ptr = [] then []
      else if isOperator ptr then
        ptr :: stopsWithin fuel (ptr.drop (getOperator ptr).length)
      else ptr :: stopsWithin fuel (ptr.dropWhile isOperandByte)

/-- Every stop leaves less of the text. -/
def stops (expr : Bytes) : List Bytes := stopsWithin expr.length expr

def onStop (source : EventSource) (expr : Bytes) (st : ParseState) (ptr : Bytes) :
    Except ParseFailure ParseState :=
  if isOperator ptr then onOperator expr ptr st else onOperand source expr ptr st

theorem skipBlank_length_le (p : Bytes) : (skipBlank p).length ≤ p.length :=
  (List.dropWhile_sublist _).length_le

theorem getOperator_length_pos (p : Bytes) : 0 < (getOperator p).length := by
  match p with
  | [] => decide
  | c :: rest =>
      rw [getOperator]
      split <;> simp

theorem operandEnd_length_lt {p : Bytes} (hne : skipBlank p ≠ [])
    (hoperator : isOperator (skipBlank p) = false) :
    ((skipBlank p).dropWhile isOperandByte).length < (skipBlank p).length := by
  match hp : skipBlank p with
  | [] => exact absurd hp hne
  | c :: rest =>
      have hblank : isBlank c = false := by
        have hhead := List.head?_dropWhile_not isBlank p
        rw [← skipBlank, hp] at hhead
        simpa using hhead
      have hbyte : isOperatorByte c = false := by
        rw [hp] at hoperator
        exact hoperator
      rw [List.dropWhile_cons_of_pos (by simp [isOperandByte, hblank, hbyte])]
      exact Nat.lt_succ_of_le (List.dropWhile_sublist _).length_le

/-- The loop goes through the stops and then reads the end of the text; a round
for each byte and one more are enough. -/
theorem parseLoop_eq (source : EventSource) (expr : Bytes) {fuel n : Nat} {ptr : Bytes}
    (hfuel : ptr.length < fuel) (hn : ptr.length ≤ n) (st : ParseState) :
    parseLoop source expr fuel ptr st
      = some (((stopsWithin n ptr).foldlM (onStop source expr) st).bind (onOperator expr [])) := by
  induction fuel generalizing n ptr st with
  | zero => exact absurd hfuel (Nat.not_lt_zero _)
  | succ fuel ih =>
      have hskip := skipBlank_length_le ptr
      rw [parseLoop]
      by_cases hend : skipBlank ptr = []
      · have hstops : stopsWithin n ptr = [] := by
          cases n with
          | zero => rfl
          | succ n => rw [stopsWithin]; exact if_pos hend
        rw [hstops]
        simp only [hend, true_or, if_true, List.foldlM_nil]
        change _ = some (onOperator expr [] st)
        cases onOperator expr [] st <;> rfl
      have hlength : 0 < (skipBlank ptr).length := List.length_pos_iff.mpr hend
      obtain ⟨n, rfl⟩ : ∃ k, n = k + 1 := ⟨n - 1, by omega⟩
      rw [stopsWithin]
      simp only [hend, false_or, if_false]
      by_cases hoperator : isOperator (skipBlank ptr)
      · have hadvance := getOperator_length_pos (skipBlank ptr)
        simp only [hoperator, if_true, List.foldlM_cons, onStop]
        cases hstep : onOperator expr (skipBlank ptr) st with
        | error failure => rfl
        | ok st' =>
            apply ih
            · rw [List.length_drop]
              omega
            · rw [List.length_drop]
              omega
      · have hshorter := operandEnd_length_lt hend (Bool.eq_false_iff.mpr hoperator)
        simp only [hoperator, Bool.false_eq_true, if_false, List.foldlM_cons, onStop]
        cases hstep : onOperand source expr (skipBlank ptr) st with
        | error failure => rfl
        | ok st' =>
            apply ih
            · omega
            · omega

theorem parseFilterExpression_eq (source : EventSource) (needJsonPayload : Bool) (text : Bytes) :
    parseFilterExpression source needJsonPayload text
      = some ((((stops (cstr text)).foldlM (onStop source (cstr text))
          ⟨[], [], needJsonPayload⟩).bind (onOperator (cstr text) [])).bind
            (parseResult (cstr text))) := by
  rw [parseFilterExpression, parseLoop_eq source (cstr text) (Nat.lt_succ_self _) le_rfl]
  rfl

/-! ### What the stacks do -/

def operatorToken {α : Type} : BinaryExprOp → Token α BinaryOp
  | .eq => .binary .eq
  | .gt => .binary .gt
  | .gte => .binary .gte
  | .lt => .binary .lt
  | .lte => .binary .lte
  | .and => .binary .and
  | .or => .binary .or
  | .lp => .left
  | .rp => .right

/-- What the loop reads at a stop: a token, unless operator bytes there are no
operator or an operand names a payload that the source does not have. -/
def tokenAt (source : EventSource) (ptr : Bytes) : Option (Token FilterExpr BinaryOp) :=
  if isOperator ptr then (operators.lookup (getOperator ptr)).map (operatorToken ·.op)
  else (operandExpr source (ptr.takeWhile isOperandByte)).map .operand

def entryInfo : Entry BinaryOp → OperatorInfo
  | .op o => o.info
  | .paren => ⟨.lp, 1⟩

def parseState (s : Stacks FilterExpr BinaryOp) (needJsonPayload : Bool) : ParseState :=
  ⟨s.operands, s.operators.map entryInfo, needJsonPayload⟩

theorem popOperators_of_lt {q : Nat} {top : OperatorInfo} (hlt : top.priority < q)
    (ops : List OperatorInfo) (es : List FilterExpr) :
    popOperators q (top :: ops) es = .ok (top :: ops, es) := by
  unfold popOperators
  exact if_neg (Nat.not_le.mpr hlt)

theorem popOperators_paren {q : Nat} (hq : q ≤ 1) (ops : List OperatorInfo)
    (es : List FilterExpr) : popOperators q (⟨.lp, 1⟩ :: ops) es = .ok (ops, es) := by
  unfold popOperators
  rw [if_pos hq, if_pos rfl]

theorem popOperators_op {q : Nat} {o : BinaryOp} (hle : q ≤ o.info.priority) (ops : List OperatorInfo)
    (l r : FilterExpr) (es : List FilterExpr) :
    popOperators q (o.info :: ops) (r :: l :: es) = popOperators q ops (o.build l r :: es) := by
  rw [popOperators, if_pos hle, if_neg o.info_op_ne_lp]
  rfl

theorem popOperators_of_short {q : Nat} {o : BinaryOp} (hle : q ≤ o.info.priority)
    (ops : List OperatorInfo) {es : List FilterExpr} (hshort : es.length < 2) :
    popOperators q (o.info :: ops) es = .error .emptyPop := by
  unfold popOperators
  rw [if_pos hle, if_neg o.info_op_ne_lp]
  match es with
  | [] => rfl
  | [e] => rfl
  | _ :: _ :: _ => simp at hshort

theorem popOperators_binary (o : BinaryOp) (ops : List (Entry BinaryOp)) (es : List FilterExpr) :
    popOperators o.priority (ops.map entryInfo) es
      = match ShuntingYard.reduce BinaryOp.priority BinaryOp.build o.priority ops es with
        | some s => .ok (s.operators.map entryInfo, s.operands)
        | none => .error .emptyPop := by
  induction ops generalizing es with
  | nil => rfl
  | cons entry ops ih =>
      cases entry with
      | paren => exact popOperators_of_lt o.two_le_priority _ es
      | op top =>
          rcases Nat.lt_or_ge top.priority o.priority with hlt | hle
          · rw [ShuntingYard.reduce_op_of_lt hlt]
            exact popOperators_of_lt hlt _ es
          match es with
          | [] => rw [ShuntingYard.reduce_op_of_short hle ops (by simp)]
                  exact popOperators_of_short hle _ (by simp)
          | [e] => rw [ShuntingYard.reduce_op_of_short hle ops (by simp)]
                   exact popOperators_of_short hle _ (by simp)
          | r :: l :: es =>
              rw [ShuntingYard.reduce_op hle, ← ih]
              exact popOperators_op hle _ l r es

/-- A closing parenthesis and the end of the text pop down to the innermost open
parenthesis, which goes too. -/
theorem popOperators_right {q : Nat} (hq : q ≤ 1) (ops : List (Entry BinaryOp))
    (es : List FilterExpr) :
    popOperators q (ops.map entryInfo) es
      = match ShuntingYard.reduce BinaryOp.priority BinaryOp.build 0 ops es with
        | some s => .ok ((ShuntingYard.dropParen s.operators).map entryInfo, s.operands)
        | none => .error .emptyPop := by
  induction ops generalizing es with
  | nil => rfl
  | cons entry ops ih =>
      cases entry with
      | paren => exact popOperators_paren hq _ es
      | op top =>
          have hle : q ≤ top.priority := by
            have := top.two_le_priority
            omega
          match es with
          | [] => rw [ShuntingYard.reduce_op_of_short (Nat.zero_le _) ops (by simp)]
                  exact popOperators_of_short hle _ (by simp)
          | [e] => rw [ShuntingYard.reduce_op_of_short (Nat.zero_le _) ops (by simp)]
                   exact popOperators_of_short hle _ (by simp)
          | r :: l :: es =>
              rw [ShuntingYard.reduce_op (Nat.zero_le _), ← ih]
              exact popOperators_op hle _ l r es

/-- The name of an operator begins at the first byte read. -/
theorem getOperator_head (c : UInt8) (rest : Bytes) :
    (getOperator (c :: rest)).head? = some c := by
  rw [getOperator]
  split <;> rfl

/-- The entries of the table but the end mark. -/
theorem operators_entry {name : Bytes} {info : OperatorInfo}
    (h : operators.lookup name = some info) (hend : name ≠ endMark) :
    (name = [leftParen] ∧ info = ⟨.lp, 1⟩) ∨ (name = [rightParen] ∧ info = ⟨.rp, 1⟩) ∨
      ∃ o : BinaryOp, name = o.name ∧ info = o.info ∧
        operatorToken (α := FilterExpr) info.op = .binary o := by
  have hall : ∀ entry ∈ operators, entry.1 ≠ endMark →
      (entry.1 = [leftParen] ∧ entry.2 = ⟨.lp, 1⟩) ∨
        (entry.1 = [rightParen] ∧ entry.2 = ⟨.rp, 1⟩) ∨
        ∃ o ∈ [BinaryOp.eq, .gt, .gte, .lt, .lte, .and, .or], entry.1 = o.name ∧
          entry.2 = o.info := by decide
  obtain ⟨before, after, hsplit, -⟩ := List.lookup_eq_some_iff.mp h
  have hmember : (name, info) ∈ operators := by
    rw [hsplit]
    simp
  rcases hall (name, info) hmember hend with hleft | hright | ⟨o, -, hname, hinfo⟩
  · exact .inl hleft
  · exact .inr (.inl hright)
  · refine .inr (.inr ⟨o, hname, hinfo, ?_⟩)
    rw [show info = o.info from hinfo]
    cases o <;> rfl

/-- The part of `onOperator` after the operator was found. -/
theorem onOperator_of_lookup (expr : Bytes) {ptr : Bytes} {info : OperatorInfo}
    (hlookup : operators.lookup (getOperator ptr) = some info) (hop : info.op ≠ .lp)
    (st : ParseState) {r : Except ParseFailure (List OperatorInfo × List FilterExpr)}
    (hpop : popOperators info.priority st.operators st.operands = r) :
    onOperator expr ptr st = r.map fun popped =>
      { st with
        operands := popped.2
        operators :=
          if ptr ≠ [] ∧ ptr.head? ≠ some rightParen then info :: popped.1 else popped.1 } := by
  rw [onOperator, hlookup]
  simp only [if_pos hop, hpop]
  cases r <;> rfl

/-- The same over the method's stacks: `kept` is what popping leaves of a
reduced operator stack and `rest` what the call makes of it. -/
theorem onOperator_of_reduce (expr : Bytes) {ptr : Bytes} {info : OperatorInfo}
    (hlookup : operators.lookup (getOperator ptr) = some info) (hop : info.op ≠ .lp)
    {s : Stacks FilterExpr BinaryOp} {q : Nat}
    (kept rest : List (Entry BinaryOp) → List (Entry BinaryOp))
    (hpop : popOperators info.priority (s.operators.map entryInfo) s.operands
      = match ShuntingYard.reduce BinaryOp.priority BinaryOp.build q s.operators s.operands with
        | some s => .ok ((kept s.operators).map entryInfo, s.operands)
        | none => .error .emptyPop)
    (hrest : ∀ ops, (if ptr ≠ [] ∧ ptr.head? ≠ some rightParen
      then info :: (kept ops).map entryInfo else (kept ops).map entryInfo)
        = (rest ops).map entryInfo) (need : Bool) :
    match (ShuntingYard.reduce BinaryOp.priority BinaryOp.build q s.operators s.operands).map
        fun s => { s with operators := rest s.operators } with
    | some s' => onOperator expr ptr (parseState s need) = .ok (parseState s' need)
    | none => onOperator expr ptr (parseState s need) = .error .emptyPop := by
  have honce := onOperator_of_lookup expr hlookup hop (parseState s need) hpop
  cases hreduce : ShuntingYard.reduce BinaryOp.priority BinaryOp.build q s.operators
      s.operands with
  | none =>
      rw [hreduce] at honce
      exact honce
  | some s' =>
      have hstacks := hrest s'.operators
      rw [hreduce] at honce
      change onOperator expr ptr (parseState s need)
        = .ok ⟨s'.operands, (rest s'.operators).map entryInfo, need⟩
      rw [← hstacks]
      exact honce

/-- An operator of the table changes the stacks as the method does. -/
theorem onOperator_spec (source : EventSource) (expr : Bytes) {ptr : Bytes}
    (hoperator : isOperator ptr = true) (s : Stacks FilterExpr BinaryOp) (need : Bool) :
    match tokenAt source ptr with
    | some t =>
        match ShuntingYard.step BinaryOp.priority BinaryOp.build s t with
        | some s' => onOperator expr ptr (parseState s need) = .ok (parseState s' need)
        | none => onOperator expr ptr (parseState s need) = .error .emptyPop
    | none => onOperator expr ptr (parseState s need)
        = .error (.freedName (expr.length - ptr.length)) := by
  obtain ⟨c, rest, rfl⟩ : ∃ c rest, ptr = c :: rest := by
    match ptr with
    | [] => cases hoperator
    | c :: rest => exact ⟨c, rest, rfl⟩
  have hhead := getOperator_head c rest
  rw [tokenAt, if_pos hoperator]
  cases hlookup : operators.lookup (getOperator (c :: rest)) with
  | none => rw [onOperator, hlookup]; rfl
  | some info =>
      have hend : getOperator (c :: rest) ≠ endMark := by
        intro hname
        rw [hname] at hhead
        obtain rfl : 36 = c := Option.some.inj hhead
        cases hoperator
      rcases operators_entry hlookup hend with ⟨hname, rfl⟩ | ⟨hname, rfl⟩ |
        ⟨o, hname, rfl, htoken⟩
      · rw [hname] at hhead
        obtain rfl : leftParen = c := Option.some.inj hhead
        rw [onOperator, hlookup]
        rfl
      · rw [hname] at hhead
        obtain rfl : rightParen = c := Option.some.inj hhead
        exact onOperator_of_reduce expr hlookup (by decide) ShuntingYard.dropParen
          ShuntingYard.dropParen (popOperators_right le_rfl s.operators s.operands)
          (fun _ => rfl) need
      · have hpush : (c :: rest) ≠ [] ∧ (c :: rest).head? ≠ some rightParen := by
          refine ⟨List.cons_ne_nil c rest, ?_⟩
          change some c ≠ some rightParen
          rw [← hhead, hname]
          cases o <;> decide
        rw [Option.map_some, htoken]
        exact onOperator_of_reduce expr hlookup o.info_op_ne_lp id (.op o :: ·)
          (popOperators_binary o s.operators s.operands) (fun _ => if_pos hpush) need

/-- The end of the text is read like a closing parenthesis. -/
theorem onOperator_end (expr : Bytes) (s : Stacks FilterExpr BinaryOp) (need : Bool) :
    match ShuntingYard.step BinaryOp.priority BinaryOp.build s .right with
    | some s' => onOperator expr [] (parseState s need) = .ok (parseState s' need)
    | none => onOperator expr [] (parseState s need) = .error .emptyPop := by
  have hlookup : operators.lookup (getOperator []) = some ⟨.eq, 0⟩ := rfl
  exact onOperator_of_reduce expr hlookup (by decide) ShuntingYard.dropParen
    ShuntingYard.dropParen (popOperators_right (Nat.zero_le 1) s.operators s.operands)
    (fun _ => rfl) need

/-- What one stop does: a token goes to the method, anything else ends the call. -/
theorem onStop_spec (source : EventSource) (expr ptr : Bytes) (s : Stacks FilterExpr BinaryOp)
    (need : Bool) :
    match tokenAt source ptr with
    | some t =>
        match ShuntingYard.step BinaryOp.priority BinaryOp.build s t with
        | some s' => ∃ need', onStop source expr (parseState s need) ptr = .ok (parseState s' need')
        | none => onStop source expr (parseState s need) ptr = .error .emptyPop
    | none =>
        if isOperator ptr then ∃ pos, onStop source expr (parseState s need) ptr
          = .error (.freedName pos)
        else ∃ pos info, onStop source expr (parseState s need) ptr
          = .error (.report pos info) := by
  by_cases hoperator : isOperator ptr
  · have hspec := onOperator_spec source expr hoperator s need
    rw [onStop, if_pos hoperator, if_pos hoperator]
    cases htoken : tokenAt source ptr with
    | none =>
        rw [htoken] at hspec
        exact ⟨_, hspec⟩
    | some t =>
        rw [htoken] at hspec
        simp only at hspec ⊢
        cases hstep : ShuntingYard.step BinaryOp.priority BinaryOp.build s t with
        | none =>
            rw [hstep] at hspec
            exact hspec
        | some s' =>
            rw [hstep] at hspec
            exact ⟨need, hspec⟩
  · rw [onStop, if_neg hoperator, tokenAt, if_neg hoperator, if_neg hoperator, onOperand]
    cases hoperand : operandExpr source (ptr.takeWhile isOperandByte) with
    | none => exact ⟨_, _, rfl⟩
    | some operand => exact ⟨_, rfl⟩

/-- Stops that are all at tokens run the method on these. -/
theorem foldlM_onStop {source : EventSource} {ptrs : List Bytes}
    {ts : List (Token FilterExpr BinaryOp)} (htokens : ptrs.map (tokenAt source) = ts.map some)
    (expr : Bytes) (s : Stacks FilterExpr BinaryOp) (need : Bool) :
    match ShuntingYard.run BinaryOp.priority BinaryOp.build s ts with
    | some s' => ∃ need', ptrs.foldlM (onStop source expr) (parseState s need)
        = .ok (parseState s' need')
    | none => ptrs.foldlM (onStop source expr) (parseState s need) = .error .emptyPop := by
  induction ptrs generalizing ts s need with
  | nil =>
      obtain rfl := List.map_eq_nil_iff.mp htokens.symm
      exact ⟨need, rfl⟩
  | cons ptr ptrs ih =>
      match ts with
      | [] => cases htokens
      | t :: ts =>
          obtain ⟨htoken, hrest⟩ := List.cons.inj htokens
          have hstop := onStop_spec source expr ptr s need
          rw [htoken] at hstop
          simp only at hstop
          rw [ShuntingYard.run_cons, List.foldlM_cons]
          cases hstep : ShuntingYard.step BinaryOp.priority BinaryOp.build s t with
          | none =>
              rw [hstep] at hstop
              rw [hstop]
              rfl
          | some s' =>
              rw [hstep] at hstop
              obtain ⟨need', hstop⟩ := hstop
              rw [hstop]
              exact ih hrest s' need'

/-- A text of tokens runs the method on them and on the end of the text. -/
theorem parseFilterExpression_tokens {source : EventSource} {text : Bytes}
    {ts : List (Token FilterExpr BinaryOp)}
    (htokens : (stops (cstr text)).map (tokenAt source) = ts.map some) (need : Bool) :
    match ShuntingYard.run BinaryOp.priority BinaryOp.build ⟨[], []⟩ (ts ++ [.right]) with
    | some s => ∃ need', parseFilterExpression source need text
        = some (parseResult (cstr text) (parseState s need'))
    | none => parseFilterExpression source need text = some (.error .emptyPop) := by
  have hfold := foldlM_onStop htokens (cstr text) ⟨[], []⟩ need
  have hstart : parseState ⟨[], []⟩ need = ⟨[], [], need⟩ := rfl
  rw [parseFilterExpression_eq, ShuntingYard.run_append, ← hstart]
  cases hrun : ShuntingYard.run BinaryOp.priority BinaryOp.build ⟨[], []⟩ ts with
  | none =>
      rw [hrun] at hfold
      rw [hfold]
      rfl
  | some s =>
      rw [hrun] at hfold
      obtain ⟨need', hfold⟩ := hfold
      have hend := onOperator_end (cstr text) s need'
      rw [hfold, Option.bind_some, ShuntingYard.run_singleton]
      cases hstep : ShuntingYard.step BinaryOp.priority BinaryOp.build s .right with
      | none =>
          rw [hstep] at hend
          change some ((onOperator (cstr text) [] (parseState s need')).bind _) = _
          rw [hend]
          rfl
      | some s' =>
          rw [hstep] at hend
          refine ⟨need', ?_⟩
          change some ((onOperator (cstr text) [] (parseState s need')).bind _) = _
          rw [hend]
          rfl

end RuleParser

end TinyMqtt
