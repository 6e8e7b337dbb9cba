import TinyMqtt.Rule.Expr

/-!
The parser of filter expressions (`rule_engine/mqtt_rule_parser.c`). A pointer
into the text is the text from there on; its zero byte at the end is the empty
list. A node on the operator stack has no links yet, so the stack has the
operators only. The lists of nodes that the function keeps to free them are
left out.
-/

namespace TinyMqtt.RuleParser

def isBlank (c : UInt8) : Bool := c = 32 ∨ c = 9

def skipBlank (p : Bytes) : Bytes := p.dropWhile isBlank

def equalSign : UInt8 := 61
def ampersand : UInt8 := 38
def bar : UInt8 := 124
def less : UInt8 := 60
def greater : UInt8 := 62
def leftParen : UInt8 := 40
def rightParen : UInt8 := 41

/-- The bytes at which `is_operator` is true. -/
def isOperatorByte (c : UInt8) : Bool :=
  c = equalSign ∨ c = ampersand ∨ c = bar ∨ c = less ∨ c = greater ∨ c = leftParen ∨
    c = rightParen

def isOperator : Bytes → Bool
  | [] => false
  | c :: _ => isOperatorByte c

def endMark : Bytes := [36, 101, 110, 100]

/-- `get_operator`. Two bytes are copied even where the second is the end of
the text; as a C string the name is then one byte long. -/
def getOperator : Bytes → Bytes
  | [] => endMark
  | c :: rest =>
      if c = leftParen ∨ c = rightParen ∨
          ((c = greater ∨ c = less) ∧ rest.head? ≠ some equalSign) then [c]
      else (c :: rest).take 2

/-- The map `operators`, as `tmq_rule_parser_init` fills it. The end mark is
given no operator, so its `op` is the first one. -/
def operators : List (Bytes × OperatorInfo) :=
  [([equalSign, equalSign], ⟨.eq, 3⟩), ([greater], ⟨.gt, 3⟩), ([greater, equalSign], ⟨.gte, 3⟩),
    ([less], ⟨.lt, 3⟩), ([less, equalSign], ⟨.lte, 3⟩), ([ampersand, ampersand], ⟨.and, 2⟩),
    ([bar, bar], ⟨.or, 2⟩), ([leftParen], ⟨.lp, 1⟩), ([rightParen], ⟨.rp, 1⟩),
    (endMark, ⟨.eq, 0⟩)]

/-- How a call fails: with a report in the parser's `error_pos` and
`error_info`, by following the null pointer that a pop of an empty stack gives,
or by putting a name into a report after it was freed. -/
inductive ParseFailure where
  | report (errorPos : Nat) (errorInfo : Bytes)
  | emptyPop
  | freedName (errorPos : Nat)
  deriving DecidableEq, Repr

/-- Both stacks, their tops first, and the result's `need_json_payload`. -/
structure ParseState where
  operands : List FilterExpr
  operators : List OperatorInfo
  needJsonPayload : Bool

/-- The loop that pops operators of at least the new one's priority. -/
def popOperators (priority : Nat) :
    List OperatorInfo → List FilterExpr →
      Except ParseFailure (List OperatorInfo × List FilterExpr)
  | [], operandStack => .ok ([], operandStack)
  | top :: operatorStack, operandStack =>
      if priority ≤ top.priority then
        if top.op = .lp then .ok (operatorStack, operandStack)
        else
          match operandStack with
          | rightExpr :: leftExpr :: operandStack =>
              popOperators priority operatorStack
                ((tmqBinaryExprNew top.op top.priority).link leftExpr rightExpr :: operandStack)
          | _ => .error .emptyPop
      else .ok (top :: operatorStack, operandStack)

/-- The branch of the loop at an operator or at the end of the text. -/
def onOperator (expr ptr : Bytes) (st : ParseState) : Except ParseFailure ParseState :=
  match operators.lookup (getOperator ptr) with
  | none => .error (.freedName (expr.length - ptr.length))
  | some operator => do
      let (operatorStack, operandStack) ←
        if operator.op ≠ .lp then popOperators operator.priority st.operators st.operands
        else .ok (st.operators, st.operands)
      let pushed :=
        if ptr ≠ [] ∧ ptr.head? ≠ some rightParen then operator :: operatorStack
        else operatorStack
      return { st with operands := operandStack, operators := pushed }

def payloadPrefix : Bytes := [112, 97, 121, 108, 111, 97, 100, 46]

def payloadField : Bytes := [112, 97, 121, 108, 111, 97, 100]

def isOperandByte (c : UInt8) : Bool := !isBlank c && !isOperatorByte c

/-- The expression of an operand. A payload's field has none when the event
source has no payload. -/
def operandExpr (source : EventSource) (value : Bytes) : Option FilterExpr :=
  if payloadPrefix.isPrefixOf value then
    (source.fieldsMeta payloadField).map fun fieldMeta =>
      tmqValueExprNew fieldMeta (some (value.drop 8))
  else
    match source.fieldsMeta value with
    | some fieldMeta => some (tmqValueExprNew fieldMeta none)
    | none => some (tmqConstExprNew value)

def onOperand (source : EventSource) (expr ptr : Bytes) (st : ParseState) :
    Except ParseFailure ParseState :=
  let value := ptr.takeWhile isOperandByte
  match operandExpr source value with
  | none => .error (.report (expr.length - ptr.length)
      (sourceText "Event source " ++ source.name ++ sourceText " has no payload"))
  | some operand => .ok
      { st with
        operands := operand :: st.operands
        needJsonPayload := st.needJsonPayload || payloadPrefix.isPrefixOf value }

/-- The loop of `parse_filter_expression`, with a bound on its rounds. -/
def parseLoop (source : EventSource) (expr : Bytes) :
    Nat → Bytes → ParseState → Option (Except ParseFailure ParseState)
  | 0, _, _ => none
  | fuel + 1, ptr, st =>
      let ptr := skipBlank ptr
      if ptr = [] ∨ isOperator ptr then
        match onOperator expr ptr st with
        | .error failure => some (.error failure)
        | .ok st =>
            if ptr = [] then some (.ok st)
            else parseLoop source expr fuel (ptr.drop (getOperator ptr).length) st
      else
        match onOperand source expr ptr st with
        | .error failure => some (.error failure)
        | .ok st => parseLoop source expr fuel (ptr.dropWhile isOperandByte) st

/-- What a call that succeeds returns, and the stacks it then frees. -/
structure ParsedFilter where
  root : FilterExpr
  operands : List FilterExpr
  operators : List OperatorInfo
  needJsonPayload : Bool

/-- After the loop one operand must be left, whatever is on the other stack. -/
def parseResult (expr : Bytes) (st : ParseState) : Except ParseFailure ParsedFilter :=
  match st.operands with
  | [root] => .ok ⟨root, [], st.operators, st.needJsonPayload⟩
  | _ => .error (.report expr.length (sourceText "Syntax error in expression"))

/-- `parse_filter_expression` with the result's `need_json_payload` before. -/
def parseFilterExpression (source : EventSource) (needJsonPayload : Bool) (text : Bytes) :
    Option (Except ParseFailure ParsedFilter) :=
  let expr := cstr text
  (parseLoop source expr (expr.length + 1) expr ⟨[], [], needJsonPayload⟩).map
    (·.bind (parseResult expr))

end TinyMqtt.RuleParser
