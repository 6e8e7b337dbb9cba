import TinyMqtt.Rule.Printing

/-!
Which texts the parser of filter expressions answers as their grammar asks. The
parser looks for a missing operand only where an operator is completed, and
counts what is left only at the end, so it is exact about a malformed text when
the counts come out right by themselves.
-/

namespace TinyMqtt.RuleParser

open ShuntingYard (Token Entry Stacks WellFormed Supplied closedIn operandsIn)

/-- An operand, an expression in parentheses or two expressions joined by a
binary operator, with any blanks between the tokens. -/
def WellFormedText (source : EventSource) (text : Bytes) : Prop :=
  ∃ ts : List (Token (Operand source) BinaryOp), WellFormed ts ∧ Spaced ts (cstr text)

/-- A well-formed text is accepted, and any other is refused with a report. -/
structure MeetsGrammar (source : EventSource) (need : Bool) (text : Bytes) : Prop where
  accepts : WellFormedText source text →
    ∃ result, parseFilterExpression source need text = some (.ok result)
  refuses : ¬WellFormedText source text → ∃ errorPos errorInfo,
    parseFilterExpression source need text = some (.error (.report errorPos errorInfo))

/-- The tokens at the first stops, and the first stop that is not at a token. -/
def readTokens (source : EventSource) :
    List Bytes → List (Token FilterExpr BinaryOp) × Option Bytes
  | [] => ([], none)
  | ptr :: ptrs =>
      match tokenAt source ptr with
      | none => ([], some ptr)
      | some t => (t :: (readTokens source ptrs).1, (readTokens source ptrs).2)

/-- The parser gets to the end of the text, with no operand or more than one
left, or to an operand that the source does not know, and on the way no operator
is completed without its operands and operator bytes are always an operator. -/
def RefusedCleanly (source : EventSource) (text : Bytes) : Prop :=
  match readTokens source (stops (cstr text)) with
  | (ts, none) => Supplied BinaryOp.priority (ts ++ [.right]) ∧
      operandsIn ts ≠ closedIn BinaryOp.priority (ts ++ [.right]) + 1
  | (ts, some ptr) => Supplied BinaryOp.priority ts ∧ isOperator ptr = false

variable {source : EventSource}

theorem readTokens_spec (source : EventSource) (ptrs : List Bytes) :
    match readTokens source ptrs with
    | (ts, none) => ptrs.map (tokenAt source) = ts.map some
    | (ts, some ptr) => ∃ good rest, ptrs = good ++ ptr :: rest ∧
        good.map (tokenAt source) = ts.map some ∧ tokenAt source ptr = none := by
  induction ptrs with
  | nil => rfl
  | cons ptr ptrs ih =>
      rw [readTokens]
      cases htoken : tokenAt source ptr with
      | none => exact ⟨[], ptrs, rfl, rfl, htoken⟩
      | some t =>
          cases hrest : readTokens source ptrs with
          | mk ts other =>
              rw [hrest] at ih
              cases other with
              | none =>
                  change (ptr :: ptrs).map (tokenAt source) = (t :: ts).map some
                  rw [List.map_cons, htoken, ih, List.map_cons]
              | some other =>
                  obtain ⟨good, rest, hsplit, hgood, hother⟩ := ih
                  refine ⟨ptr :: good, rest, by rw [hsplit]; rfl, ?_, hother⟩
                  rw [List.map_cons, htoken, hgood, List.map_cons]

/-- Reading a whole text of tokens is refused with a report exactly when they
are supplied with operands and not one operand is left. -/
theorem reports_iff_of_tokens {text : Bytes} {ts : List (Token FilterExpr BinaryOp)}
    (htokens : (stops (cstr text)).map (tokenAt source) = ts.map some) (need : Bool) :
    (∃ errorPos errorInfo,
      parseFilterExpression source need text = some (.error (.report errorPos errorInfo)))
      ↔ Supplied BinaryOp.priority (ts ++ [.right]) ∧
        operandsIn ts ≠ closedIn BinaryOp.priority (ts ++ [.right]) + 1 := by
  have hparse := parseFilterExpression_tokens htokens need
  have hsupplied := ShuntingYard.run_isSome_iff BinaryOp.priority BinaryOp.build
    (ts ++ [.right])
  have hoperands : operandsIn (ts ++ [.right]) = operandsIn ts :=
    ShuntingYard.operandsIn_concat ts .right
  cases hrun : ShuntingYard.run BinaryOp.priority BinaryOp.build ⟨[], []⟩ (ts ++ [.right]) with
  | none =>
      rw [hrun] at hparse hsupplied
      apply iff_of_false
      · rintro ⟨errorPos, errorInfo, hreport⟩
        rw [hparse] at hreport
        cases hreport
      · rintro ⟨hall, -⟩
        cases hsupplied.mpr hall
  | some s =>
      rw [hrun] at hparse hsupplied
      obtain ⟨need', hparse⟩ := hparse
      have hcount := ShuntingYard.operands_of_run BinaryOp.priority BinaryOp.build hrun
      rw [hoperands] at hcount
      have hleft : operandsIn ts ≠ closedIn BinaryOp.priority (ts ++ [.right]) + 1 ↔
          s.operands.length ≠ 1 := by omega
      rw [hparse, hleft, and_iff_right (hsupplied.mp rfl), parseResult, parseState]
      match s.operands with
      | [] => exact iff_of_true ⟨_, _, rfl⟩ (by simp)
      | [root] =>
          apply iff_of_false
          · rintro ⟨errorPos, errorInfo, hreport⟩
            cases hreport
          · simp
      | _ :: _ :: _ => exact iff_of_true ⟨_, _, rfl⟩ (by simp)

/-- A text that stops being tokens somewhere is refused with a report exactly
when it is an operand that stands there and the part before is supplied. -/
theorem reports_iff_of_other {text ptr : Bytes} {good rest : List Bytes}
    {ts : List (Token FilterExpr BinaryOp)} (hstops : stops (cstr text) = good ++ ptr :: rest)
    (htokens : good.map (tokenAt source) = ts.map some) (hptr : tokenAt source ptr = none)
    (need : Bool) :
    (∃ errorPos errorInfo,
      parseFilterExpression source need text = some (.error (.report errorPos errorInfo)))
      ↔ Supplied BinaryOp.priority ts ∧ isOperator ptr = false := by
  have hfold := foldlM_onStop htokens (cstr text) ⟨[], []⟩ need
  have hstart : parseState ⟨[], []⟩ need = ⟨[], [], need⟩ := rfl
  have hsupplied := ShuntingYard.run_isSome_iff BinaryOp.priority BinaryOp.build ts
  rw [parseFilterExpression_eq, hstops, List.foldlM_append, ← hstart]
  cases hrun : ShuntingYard.run BinaryOp.priority BinaryOp.build ⟨[], []⟩ ts with
  | none =>
      rw [hrun] at hfold hsupplied
      rw [hfold]
      apply iff_of_false
      · rintro ⟨errorPos, errorInfo, hreport⟩
        cases hreport
      · rintro ⟨hall, -⟩
        cases hsupplied.mpr hall
  | some s =>
      rw [hrun] at hfold hsupplied
      obtain ⟨need', hfold⟩ := hfold
      have hstop := onStop_spec source (cstr text) ptr s need'
      rw [hptr] at hstop
      rw [hfold, and_iff_right (hsupplied.mp rfl)]
      change (∃ errorPos errorInfo, some ((((ptr :: rest).foldlM (onStop source (cstr text))
        (parseState s need')).bind _).bind _) = _) ↔ _
      rw [List.foldlM_cons]
      cases hoperator : isOperator ptr with
      | true =>
          simp only [hoperator, if_true] at hstop
          obtain ⟨pos, hstop⟩ := hstop
          rw [hstop]
          apply iff_of_false
          · rintro ⟨errorPos, errorInfo, hreport⟩
            cases hreport
          · simp
      | false =>
          simp only [hoperator, Bool.false_eq_true, if_false] at hstop
          obtain ⟨pos, info, hstop⟩ := hstop
          rw [hstop]
          exact iff_of_true ⟨pos, info, rfl⟩ rfl

/-- The parser refuses a text with a report exactly when it is refused cleanly. -/
theorem reports_iff (need : Bool) (text : Bytes) :
    (∃ errorPos errorInfo,
      parseFilterExpression source need text = some (.error (.report errorPos errorInfo)))
      ↔ RefusedCleanly source text := by
  have hspec := readTokens_spec source (stops (cstr text))
  rw [RefusedCleanly]
  cases hread : readTokens source (stops (cstr text)) with
  | mk ts other =>
      rw [hread] at hspec
      cases other with
      | none => exact reports_iff_of_tokens hspec need
      | some ptr =>
          obtain ⟨good, rest, hstops, htokens, hptr⟩ := hspec
          exact reports_iff_of_other hstops htokens hptr need

theorem WellFormedText.accepted {text : Bytes} (h : WellFormedText source text) (need : Bool) :
    ∃ result, parseFilterExpression source need text = some (.ok result) := by
  obtain ⟨ts, hts, hspaced⟩ := h
  obtain ⟨root, hrun⟩ := (hts.map Operand.expr).run_end BinaryOp.priority BinaryOp.build
  have hparse := parseFilterExpression_tokens (hspaced.stops_wellFormed hts) need
  rw [hrun] at hparse
  obtain ⟨need', hparse⟩ := hparse
  exact ⟨_, hparse⟩

/-- The grammar is met on the well-formed texts and on those whose counts make
the parser notice what is wrong. -/
theorem meetsGrammar_iff (source : EventSource) (need : Bool) (text : Bytes) :
    MeetsGrammar source need text ↔ WellFormedText source text ∨ RefusedCleanly source text := by
  constructor
  · intro h
    by_cases hformed : WellFormedText source text
    · exact .inl hformed
    · exact .inr ((reports_iff need text).mp (h.refuses hformed))
  · intro h
    refine ⟨fun hformed => hformed.accepted need, ?_⟩
    intro hformed
    exact (reports_iff need text).mpr (h.resolve_left hformed)

/-- On `1==` the parser takes a second operand from an empty stack. -/
theorem not_meetsGrammar_missingOperand : ¬MeetsGrammar messageSource false [49, 61, 61] := by
  have hparse : parseFilterExpression messageSource false [49, 61, 61]
      = some (.error .emptyPop) := rfl
  intro h
  by_cases hformed : WellFormedText messageSource [49, 61, 61]
  · obtain ⟨result, hok⟩ := h.accepts hformed
    rw [hparse] at hok
    cases hok
  · obtain ⟨errorPos, errorInfo, hreport⟩ := h.refuses hformed
    rw [hparse] at hreport
    cases hreport

end TinyMqtt.RuleParser
