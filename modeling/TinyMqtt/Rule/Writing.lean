import TinyMqtt.Rule.Engine
import TinyMqtt.Rule.Meaning
import TinyMqtt.Rule.Printing
import TinyMqtt.Rule.Safety

/-!
Rules written as text. A rule is its columns, its source and perhaps a filter;
it is written with its words in letters of any case, any blanks between its
parts and either way of parentheses in the filter. Reading the text gives a
listener that does on every event of its source what the rule says.
-/

namespace TinyMqtt

open RuleParser
open ShuntingYard (Tree)

/-! ### Filters -/

abbrev Filter := Tree Term BinaryOp

inductive Filter.Says (record : EventRecord) : Filter → FilterValue → Prop
  | leaf {t : Term} {v : FilterValue} : t.value record = some v → Says record (.leaf t) v
  | node {o : BinaryOp} {l r : Filter} {v w : FilterValue} {b : Bool} :
      Says record l v → Says record r w → (b = true ↔ o.Holds v w) →
      Says record (.node o l r) (.bool b)

structure WrittenTerm (source : RegisteredSource) where
  term : Term
  operand : Operand source.eventSource
  operandText : OperandText source term operand.text

abbrev WrittenFilter (source : RegisteredSource) := Tree (WrittenTerm source) BinaryOp

namespace WrittenFilter

variable {source : RegisteredSource}

def filter (tree : WrittenFilter source) : Filter := tree.map WrittenTerm.term

def operands (tree : WrittenFilter source) : FilterTree source.eventSource :=
  tree.map WrittenTerm.operand

end WrittenFilter

section Evaluate

variable {J : Type} (getObjectItem : J → Bytes → Option CJsonItem) {source : RegisteredSource}

theorem tmqStrNew_zeroFree (s : Bytes) : (FilterValue.str (tmqStrNew s)).ZeroFree :=
  zero_not_mem_cstr s

theorem jsonItemValue_zeroFree {item : CJsonItem} {v : FilterValue}
    (h : jsonItemValue item = some v) : v.ZeroFree := by
  cases item with
  | string s =>
      obtain rfl := Option.some.inj h
      exact tmqStrNew_zeroFree s
  | number value =>
      obtain ⟨n, -, rfl⟩ := Option.map_eq_some_iff.mp h
      trivial
  | bool b =>
      obtain rfl := Option.some.inj h
      trivial
  | null =>
      obtain rfl := Option.some.inj h
      trivial
  | other =>
      obtain rfl := Option.some.inj h
      trivial

theorem cellValue_zeroFree {field : EventDataField} {name : Option Bytes} {cell : EventCell J}
    {v : FilterValue} (h : cellValue getObjectItem field name cell = some v) : v.ZeroFree := by
  cases cell with
  | str s =>
      rw [cellValue] at h
      split at h
      · obtain rfl := Option.some.inj h
        cases s with
        | none => trivial
        | some s => exact tmqStrNew_zeroFree s
      · cases h
  | int size n =>
      rw [cellValue] at h
      split at h
      · obtain rfl := Option.some.inj h
        trivial
      · cases h
  | json json =>
      rw [cellValue] at h
      split at h
      · split at h
        · obtain rfl := Option.some.inj h
          trivial
        · exact jsonItemValue_zeroFree h
      · cases h

/-- Every string that an expression gives is a copy. -/
theorem evaluate_zeroFree {event : TmqEvent J} {e : FilterExpr} {v : FilterValue}
    (h : e.evaluate getObjectItem source event = some v) : v.ZeroFree := by
  match e with
  | .value fieldMeta name =>
      rw [FilterExpr.evaluate, valueExprEvaluate] at h
      obtain ⟨field, -, h⟩ := Option.bind_eq_some_iff.mp h
      obtain ⟨cell, -, h⟩ := Option.bind_eq_some_iff.mp h
      exact cellValue_zeroFree getObjectItem h
  | .const value =>
      obtain rfl := Option.some.inj h
      cases value with
      | str s => exact tmqStrNew_zeroFree _
      | _ => trivial
  | .binary op (some left) (some right) =>
      rw [FilterExpr.evaluate] at h
      obtain ⟨leftResult, -, h⟩ := Option.bind_eq_some_iff.mp h
      obtain ⟨rightResult, -, h⟩ := Option.bind_eq_some_iff.mp h
      obtain rfl := Option.some.inj h
      trivial
  | .binary op none _ => cases h
  | .binary op (some _) none => cases h

/-- The expression of a written filter has on an event the value that the
filter has on its record. -/
theorem evaluate_iff_says (hsource : source ∈ properSources) {event : TmqEvent J}
    (hevent : event.type = source.eventType) (tree : WrittenFilter source) (v : FilterValue) :
    (filterExpr tree.operands).evaluate getObjectItem source event = some v ↔
      tree.filter.Says (event.record getObjectItem) v := by
  induction tree generalizing v with
  | leaf a =>
      obtain ⟨e, hexpr, hgives, -⟩ := a.operandText.operandExpr getObjectItem hsource
      rw [a.operand.operandExpr_text] at hexpr
      obtain rfl := Option.some.inj hexpr
      change a.operand.expr.evaluate getObjectItem source event = some v ↔ _
      rw [hgives event hevent]
      constructor
      · exact .leaf
      · rintro ⟨h⟩
        exact h
  | node o l r ihl ihr =>
      change (FilterExpr.binary o.info (some (filterExpr (WrittenFilter.operands l)))
        (some (filterExpr (WrittenFilter.operands r)))).evaluate getObjectItem source event
          = some v ↔ Filter.Says _ (.node o (WrittenFilter.filter l) (WrittenFilter.filter r)) v
      rw [FilterExpr.evaluate]
      constructor
      · intro h
        obtain ⟨leftResult, hleft, h⟩ := Option.bind_eq_some_iff.mp h
        obtain ⟨rightResult, hright, h⟩ := Option.bind_eq_some_iff.mp h
        obtain rfl := Option.some.inj h
        exact .node ((ihl leftResult).mp hleft) ((ihr rightResult).mp hright)
          (binaryResult_iff o (evaluate_zeroFree getObjectItem hleft)
            (evaluate_zeroFree getObjectItem hright))
      · rintro (_ | ⟨hleft, hright, hholds⟩)
        have hleft := (ihl _).mpr hleft
        have hright := (ihr _).mpr hright
        rw [hleft, Option.bind_eq_bind, Option.bind_some, hright, Option.bind_some]
        have hresult := binaryResult_iff o (evaluate_zeroFree getObjectItem hleft)
          (evaluate_zeroFree getObjectItem hright)
        rw [← hholds] at hresult
        rw [Bool.eq_iff_iff.mpr hresult]
        rfl

end Evaluate

/-! ### Payloads -/

namespace RuleParser

open ShuntingYard (Token Renders)

variable {source : EventSource}

def tokenReadsPayload : Token (Operand source) BinaryOp → Bool
  | .operand a => payloadPrefix.isPrefixOf a.text
  | _ => false

/-- The stops of a written text read the payloads that its tokens name. -/
theorem Spaced.any_readsPayloadAt {ts : List (Token (Operand source) BinaryOp)} {text : Bytes}
    (h : Spaced ts text) (hchain : ts.IsChain Token.Apart) {n : Nat} (hn : text.length ≤ n) :
    (stopsWithin n text).any readsPayloadAt = ts.any tokenReadsPayload := by
  induction h generalizing n with
  | nil hblanks =>
      have hskip : skipBlank _ = [] := List.dropWhile_eq_nil_iff.mpr hblanks
      match n with
      | 0 => rfl
      | n + 1 => simp [stopsWithin, hskip]
  | @cons blanks text ts t hblanks hrest ih =>
      obtain ⟨hapart, hchain'⟩ := List.isChain_cons.mp hchain
      obtain ⟨-, hkind, hoperand, hoperator⟩ := readToken hrest hapart
      obtain ⟨c, rest, htext, hblank, -⟩ := tokenText_head t
      have hskip : skipBlank (blanks ++ (tokenText t ++ text)) = tokenText t ++ text := by
        rw [skipBlank_blanks hblanks, htext]
        exact List.dropWhile_cons_of_neg (by simp [hblank])
      have hne : tokenText t ++ text ≠ [] := by
        simp [htext]
      have hlength : 0 < (tokenText t).length := by
        simp [htext]
      have hreads : readsPayloadAt (tokenText t ++ text) = tokenReadsPayload t := by
        rw [readsPayloadAt, hkind, Bool.not_not]
        cases t with
        | operand a =>
            have htake : (a.text ++ text).takeWhile isOperandByte = a.text := by
              have hsplit := List.takeWhile_append_dropWhile (p := isOperandByte) (l := a.text ++ text)
              have hdrop : (a.text ++ text).dropWhile isOperandByte = text := hoperand rfl
              rw [hdrop] at hsplit
              exact List.append_cancel_right hsplit
            change (true && payloadPrefix.isPrefixOf ((a.text ++ text).takeWhile isOperandByte)) = _
            rw [htake]
            rfl
        | _ => rfl
      rw [List.length_append, List.length_append] at hn
      obtain ⟨n, rfl⟩ : ∃ k, n = k + 1 := ⟨n - 1, by omega⟩
      rw [stopsWithin]
      simp only [hskip, hne, if_false, hkind]
      cases hoperandKind : t.isOperand with
      | true =>
          simp only [Bool.not_true, Bool.false_eq_true, if_false, List.any_cons, hreads,
            hoperand hoperandKind]
          rw [ih hchain' (by omega)]
      | false =>
          simp only [Bool.not_false, if_true, List.any_cons, hreads, hoperator hoperandKind]
          rw [ih hchain' (by omega)]

def treeReadsPayload : FilterTree source → Bool
  | .leaf a => payloadPrefix.isPrefixOf a.text
  | .node _ l r => treeReadsPayload l || treeReadsPayload r

theorem any_tokenReadsPayload {prio : BinaryOp → Nat} {q : Nat} {tree : FilterTree source}
    {ts : List (Token (Operand source) BinaryOp)} (h : Renders prio q tree ts) :
    ts.any tokenReadsPayload = treeReadsPayload tree := by
  induction h with
  | leaf q a => simp [tokenReadsPayload, treeReadsPayload]
  | parens q _ ih => simpa [tokenReadsPayload] using ih
  | node hlevel _ _ ihl ihr => simp [tokenReadsPayload, treeReadsPayload, ihl, ihr]

/-- Parsing a written tree sets the flag when an operand names a payload's
field. -/
theorem parseFilterExpression_need (style : Parentheses) (tree : FilterTree source) {text : Bytes}
    (h : Spaced (style.tokens tree) text) (need : Bool) :
    parseFilterExpression source need text
      = some (.ok ⟨filterExpr tree, [], [], need || treeReadsPayload tree⟩) := by
  have hrenders := style.renders tree
  have hstops := h.stops_wellFormed hrenders.wellFormed
  have hrun := (hrenders.map Operand.expr).run_end BinaryOp.build
  rw [← h.cstr_eq] at hstops
  have hparse := parseFilterExpression_tokens hstops need
  rw [hrun] at hparse
  obtain ⟨need', hparse⟩ := hparse
  have hresult : parseResult (cstr text) (parseState
      (⟨[(tree.map Operand.expr).value BinaryOp.build], []⟩ :
        ShuntingYard.Stacks FilterExpr BinaryOp) need') = .ok ⟨filterExpr tree, [], [], need'⟩ := by
    rw [filterExpr_eq_value]
    rfl
  rw [hresult] at hparse
  have hneed := needJsonPayload_of_parse hparse
  rw [h.cstr_eq, stops, h.any_readsPayloadAt hrenders.wellFormed.edges.chain le_rfl,
    any_tokenReadsPayload hrenders] at hneed
  rw [hparse, ← hneed]

end RuleParser

end TinyMqtt
