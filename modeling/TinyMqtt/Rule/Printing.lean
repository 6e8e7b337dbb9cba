import TinyMqtt.Rule.Tokens

/-!
Expressions written as text. The operands of a tree are texts; the tree is
written with parentheses around every operator or only around those that the
priorities ask for, and with any blanks between its tokens.
-/

namespace TinyMqtt

open ShuntingYard (Token Tree Renders WellFormed Edges)

namespace RuleParser

/-- An operand that can stand in a text: bytes of operands only, and a payload's
field only where the source has a payload. -/
structure Operand (source : EventSource) where
  text : Bytes
  expr : FilterExpr
  text_ne_nil : text ≠ []
  plain : ∀ c ∈ text, c ≠ 0 ∧ isOperandByte c = true
  operandExpr_text : operandExpr source text = some expr

abbrev FilterTree (source : EventSource) := Tree (Operand source) BinaryOp

/-- The expression of a tree, both links of every operator set. -/
def filterExpr {source : EventSource} : FilterTree source → FilterExpr
  | .leaf a => a.expr
  | .node o l r => .binary o.info (some (filterExpr l)) (some (filterExpr r))

variable {source : EventSource}

inductive Parentheses where
  | full | minimal
  deriving DecidableEq, Repr

def Parentheses.tokens (style : Parentheses) (tree : FilterTree source) :
    List (Token (Operand source) BinaryOp) :=
  match style with
  | .full => tree.fullTokens
  | .minimal => tree.minimalTokens BinaryOp.priority 0

def tokenText : Token (Operand source) BinaryOp → Bytes
  | .operand a => a.text
  | .binary o => o.name
  | .left => [leftParen]
  | .right => [rightParen]

def Blanks (s : Bytes) : Prop := ∀ c ∈ s, isBlank c = true

/-- The text of the tokens, with blanks before, between and after them. -/
inductive Spaced : List (Token (Operand source) BinaryOp) → Bytes → Prop
  | nil {blanks : Bytes} : Blanks blanks → Spaced [] blanks
  | cons {blanks text : Bytes} {ts : List (Token (Operand source) BinaryOp)}
      (t : Token (Operand source) BinaryOp) :
      Blanks blanks → Spaced ts text → Spaced (t :: ts) (blanks ++ (tokenText t ++ text))

/-! ### Bytes -/

theorem isBlank_of_isOperandByte {c : UInt8} (h : isOperandByte c = true) : isBlank c = false := by
  rw [isOperandByte] at h
  cases hblank : isBlank c with
  | false => rfl
  | true => simp [hblank] at h

theorem isOperatorByte_of_isOperandByte {c : UInt8} (h : isOperandByte c = true) :
    isOperatorByte c = false := by
  rw [isOperandByte] at h
  cases hbyte : isOperatorByte c with
  | false => rfl
  | true => simp [hbyte] at h

theorem isOperandByte_of_isBlank {c : UInt8} (h : isBlank c = true) : isOperandByte c = false := by
  rw [isOperandByte, h]
  rfl

theorem isBlank_of_isOperatorByte {c : UInt8} (h : isOperatorByte c = true) :
    isBlank c = false := by
  cases hblank : isBlank c with
  | false => rfl
  | true =>
      have hcases : c = 32 ∨ c = 9 := by simpa [isBlank] using hblank
      rcases hcases with rfl | rfl <;> cases h

theorem operatorName_bytes (o : BinaryOp) :
    ∃ c rest, o.name = c :: rest ∧ isOperatorByte c = true ∧ 0 ∉ o.name := by
  cases o <;> exact ⟨_, _, rfl, rfl, by decide⟩

/-- The first byte of a token tells operands from the rest. -/
theorem tokenText_head (t : Token (Operand source) BinaryOp) :
    ∃ c rest, tokenText t = c :: rest ∧ isBlank c = false ∧ isOperandByte c = t.isOperand ∧
      isOperatorByte c = !t.isOperand := by
  have hoperator : ∀ c, isOperatorByte c = true → isBlank c = false ∧ isOperandByte c = false := by
    intro c hc
    exact ⟨isBlank_of_isOperatorByte hc, by simp [isOperandByte, hc]⟩
  cases t with
  | operand a =>
      obtain ⟨c, rest, htext⟩ := List.exists_cons_of_ne_nil a.text_ne_nil
      have hbyte := (a.plain c (by simp [htext])).2
      exact ⟨c, rest, htext, isBlank_of_isOperandByte hbyte, hbyte,
        isOperatorByte_of_isOperandByte hbyte⟩
  | binary o =>
      obtain ⟨c, rest, hname, hbyte, -⟩ := operatorName_bytes o
      exact ⟨c, rest, hname, (hoperator c hbyte).1, (hoperator c hbyte).2, hbyte⟩
  | left => exact ⟨leftParen, [], rfl, rfl, rfl, rfl⟩
  | right => exact ⟨rightParen, [], rfl, rfl, rfl, rfl⟩

theorem zero_not_mem_tokenText (t : Token (Operand source) BinaryOp) : 0 ∉ tokenText t := by
  cases t with
  | operand a =>
      intro hzero
      exact (a.plain 0 hzero).1 rfl
  | binary o =>
      obtain ⟨_, _, -, -, hzero⟩ := operatorName_bytes o
      exact hzero
  | left => simp [tokenText, leftParen]
  | right => simp [tokenText, rightParen]

theorem Spaced.zero_not_mem {ts : List (Token (Operand source) BinaryOp)} {text : Bytes}
    (h : Spaced ts text) : 0 ∉ text := by
  induction h with
  | nil hblanks =>
      intro hzero
      cases hblanks 0 hzero
  | cons t hblanks _ ih =>
      intro hzero
      rcases List.mem_append.mp hzero with hzero | hzero
      · cases hblanks 0 hzero
      · rcases List.mem_append.mp hzero with hzero | hzero
        · exact zero_not_mem_tokenText t hzero
        · exact ih hzero

/-- A text begins with a blank or with its first token. -/
theorem Spaced.head {ts : List (Token (Operand source) BinaryOp)} {text : Bytes}
    (h : Spaced ts text) {c : UInt8} (hc : text.head? = some c) :
    isBlank c = true ∨ ∃ t ∈ ts.head?, (tokenText t).head? = some c := by
  cases h with
  | nil hblanks => exact .inl (hblanks c (List.mem_of_head? hc))
  | @cons blanks _ _ t hblanks _ =>
      match blanks with
      | [] =>
          refine .inr ⟨t, rfl, ?_⟩
          obtain ⟨d, rest, htext, -⟩ := tokenText_head t
          rw [htext] at hc ⊢
          exact hc
      | d :: _ =>
          obtain rfl : d = c := Option.some.inj hc
          exact .inl (hblanks d (List.mem_cons_self ..))

/-! ### Reading a written text -/

/-- Before anything but an operand an operand is over. -/
theorem Spaced.head_not_operand {ts : List (Token (Operand source) BinaryOp)} {text : Bytes}
    (h : Spaced ts text) (hts : ∀ t ∈ ts.head?, t.isOperand = false) {c : UInt8}
    (hc : text.head? = some c) : isOperandByte c = false := by
  rcases h.head hc with hblank | ⟨t, ht, htext⟩
  · exact isOperandByte_of_isBlank hblank
  · obtain ⟨d, rest, heq, -, hbyte, -⟩ := tokenText_head t
    rw [heq] at htext
    obtain rfl : d = c := Option.some.inj htext
    rw [hbyte, hts t ht]

/-- Before anything but an operator a `>` or `<` is over. -/
theorem Spaced.head_ne_equalSign {ts : List (Token (Operand source) BinaryOp)} {text : Bytes}
    (h : Spaced ts text) (hts : ∀ t ∈ ts.head?, t.isBinary = false) :
    text.head? ≠ some equalSign := by
  intro hc
  rcases h.head hc with hblank | ⟨t, ht, htext⟩
  · cases hblank
  cases t with
  | operand a =>
      have hfirst : equalSign ∈ a.text := List.mem_of_head? htext
      have hbyte := (a.plain equalSign hfirst).2
      cases hbyte
  | binary o => cases hts _ ht
  | left => cases htext
  | right => cases htext

theorem getOperator_operatorName (o : BinaryOp) {rest : Bytes}
    (hrest : rest.head? ≠ some equalSign) : getOperator (o.name ++ rest) = o.name := by
  cases o with
  | gt => exact if_pos (.inr (.inr ⟨.inl rfl, hrest⟩))
  | lt => exact if_pos (.inr (.inr ⟨.inr rfl, hrest⟩))
  | _ => rfl

/-- What the parser reads at a token that is followed by one of another kind. -/
theorem readToken {t : Token (Operand source) BinaryOp}
    {ts : List (Token (Operand source) BinaryOp)} {rest : Bytes} (h : Spaced ts rest)
    (hapart : ∀ u ∈ ts.head?, t.Apart u) :
    tokenAt source (tokenText t ++ rest) = some (t.map Operand.expr) ∧
      isOperator (tokenText t ++ rest) = !t.isOperand ∧
      (t.isOperand = true → (tokenText t ++ rest).dropWhile isOperandByte = rest) ∧
      (t.isOperand = false →
        (tokenText t ++ rest).drop (getOperator (tokenText t ++ rest)).length = rest) := by
  cases t with
  | operand a =>
      have hplain : ∀ c ∈ a.text, isOperandByte c = true := fun c hc => (a.plain c hc).2
      have hover : ∀ c, rest.head? = some c → isOperandByte c = false := by
        intro c hc
        apply h.head_not_operand _ hc
        intro u hu
        cases hkind : u.isOperand with
        | false => rfl
        | true => exact absurd ⟨rfl, hkind⟩ (hapart u hu).1
      have htake : (a.text ++ rest).takeWhile isOperandByte = a.text := by
        rw [List.takeWhile_append_of_pos hplain]
        match rest with
        | [] => simp
        | c :: _ => simp [hover c rfl]
      have hdrop : (a.text ++ rest).dropWhile isOperandByte = rest := by
        rw [List.dropWhile_append_of_pos hplain]
        match rest with
        | [] => rfl
        | c :: _ => exact List.dropWhile_cons_of_neg (by simp [hover c rfl])
      have hoperator : isOperator (a.text ++ rest) = false := by
        obtain ⟨c, tail, htext⟩ := List.exists_cons_of_ne_nil a.text_ne_nil
        rw [htext]
        exact isOperatorByte_of_isOperandByte (hplain c (by simp [htext]))
      refine ⟨?_, hoperator, fun _ => hdrop, fun hkind => by cases hkind⟩
      change tokenAt source (a.text ++ rest) = some (.operand a.expr)
      rw [tokenAt, hoperator, htake, a.operandExpr_text]
      rfl
  | binary o =>
      have hrest : rest.head? ≠ some equalSign := by
        apply h.head_ne_equalSign
        intro u hu
        cases hkind : u.isBinary with
        | false => rfl
        | true => exact absurd ⟨rfl, hkind⟩ (hapart u hu).2
      have hname := getOperator_operatorName o hrest
      have hoperator : isOperator (o.name ++ rest) = true := by
        obtain ⟨c, tail, hbytes, hbyte, -⟩ := operatorName_bytes o
        rw [hbytes]
        exact hbyte
      refine ⟨?_, hoperator, fun hkind => by (cases hkind), fun _ => ?_⟩
      · change tokenAt source (o.name ++ rest) = some (.binary o)
        rw [tokenAt, if_pos hoperator, hname]
        cases o <;> rfl
      · change (o.name ++ rest).drop (getOperator (o.name ++ rest)).length = rest
        rw [hname, List.drop_left]
  | left => exact ⟨rfl, rfl, fun hkind => by (cases hkind), fun _ => rfl⟩
  | right => exact ⟨rfl, rfl, fun hkind => by (cases hkind), fun _ => rfl⟩

theorem skipBlank_blanks {blanks : Bytes} (h : Blanks blanks) (text : Bytes) :
    skipBlank (blanks ++ text) = skipBlank text :=
  List.dropWhile_append_of_pos h

/-- The parser stops at the tokens of a written text and nowhere else. -/
theorem Spaced.stops {ts : List (Token (Operand source) BinaryOp)} {text : Bytes}
    (h : Spaced ts text) (hchain : ts.IsChain Token.Apart) {n : Nat} (hn : text.length ≤ n) :
    (stopsWithin n text).map (tokenAt source) = (ts.map (Token.map Operand.expr)).map some := by
  induction h generalizing n with
  | nil hblanks =>
      have hskip : skipBlank _ = [] := List.dropWhile_eq_nil_iff.mpr hblanks
      match n with
      | 0 => rfl
      | n + 1 => simp [stopsWithin, hskip]
  | @cons blanks text ts t hblanks hrest ih =>
      obtain ⟨hapart, hchain'⟩ := List.isChain_cons.mp hchain
      obtain ⟨htoken, hkind, hoperand, hoperator⟩ := readToken hrest hapart
      obtain ⟨c, rest, htext, hblank, -⟩ := tokenText_head t
      have hskip : skipBlank (blanks ++ (tokenText t ++ text)) = tokenText t ++ text := by
        rw [skipBlank_blanks hblanks, htext]
        exact List.dropWhile_cons_of_neg (by simp [hblank])
      have hne : tokenText t ++ text ≠ [] := by
        simp [htext]
      have hlength : 0 < (tokenText t).length := by
        simp [htext]
      rw [List.length_append, List.length_append] at hn
      obtain ⟨n, rfl⟩ : ∃ k, n = k + 1 := ⟨n - 1, by omega⟩
      rw [stopsWithin]
      simp only [hskip, hne, if_false, hkind]
      cases hoperandKind : t.isOperand with
      | true =>
          simp only [Bool.not_true, Bool.false_eq_true, if_false, List.map_cons, htoken,
            hoperand hoperandKind]
          rw [ih hchain' (by omega)]
      | false =>
          simp only [Bool.not_false, if_true, List.map_cons, htoken, hoperator hoperandKind]
          rw [ih hchain' (by omega)]

/-! ### Parsing what was written -/

theorem operandExpr_linked {value : Bytes} {e : FilterExpr}
    (h : operandExpr source value = some e) : e.Linked := by
  have hconst : (tmqConstExprNew value).Linked := by
    unfold tmqConstExprNew
    split
    · trivial
    · split_ifs <;> trivial
  rw [operandExpr] at h
  split at h
  · obtain ⟨fieldMeta, -, rfl⟩ := Option.map_eq_some_iff.mp h
    trivial
  · split at h
    · obtain rfl := Option.some.inj h
      trivial
    · obtain rfl := Option.some.inj h
      exact hconst

theorem filterExpr_linked (tree : FilterTree source) : (filterExpr tree).Linked := by
  induction tree with
  | leaf a => exact operandExpr_linked a.operandExpr_text
  | node o l r ihl ihr => exact ⟨ihl, ihr⟩

theorem filterExpr_eq_value (tree : FilterTree source) :
    filterExpr tree = (tree.map Operand.expr).value BinaryOp.build := by
  induction tree with
  | leaf a => rfl
  | node o l r ihl ihr =>
      rw [filterExpr, ihl, ihr]
      cases o <;> rfl

theorem Parentheses.renders (style : Parentheses) (tree : FilterTree source) :
    Renders BinaryOp.priority 0 tree (style.tokens tree) := by
  cases style with
  | full => exact tree.renders_fullTokens BinaryOp.priority 0
  | minimal => exact tree.renders_minimalTokens BinaryOp.priority 0

/-- The tokens of a well-formed text are what the parser reads. -/
theorem Spaced.stops_wellFormed {ts : List (Token (Operand source) BinaryOp)} {text : Bytes}
    (h : Spaced ts text) (hts : WellFormed ts) :
    (RuleParser.stops text).map (tokenAt source) = (ts.map (Token.map Operand.expr)).map some :=
  h.stops hts.edges.chain le_rfl

theorem Spaced.cstr_eq {ts : List (Token (Operand source) BinaryOp)} {text : Bytes}
    (h : Spaced ts text) : cstr text = text :=
  (cstr_eq_self_iff text).mpr h.zero_not_mem

/-- Parsing a written tree gives the tree back, and nothing else is left on the
stacks. -/
theorem parseFilterExpression_written (style : Parentheses) (tree : FilterTree source)
    {text : Bytes} (h : Spaced (style.tokens tree) text) (need : Bool) :
    ∃ need', parseFilterExpression source need text
        = some (.ok ⟨filterExpr tree, [], [], need'⟩) ∧ (filterExpr tree).Linked := by
  have hrenders := style.renders tree
  have hstops := h.stops_wellFormed hrenders.wellFormed
  have hrun := (hrenders.map Operand.expr).run_end BinaryOp.build
  rw [← h.cstr_eq] at hstops
  have hparse := parseFilterExpression_tokens hstops need
  rw [hrun] at hparse
  obtain ⟨need', hparse⟩ := hparse
  refine ⟨need', ?_, filterExpr_linked tree⟩
  rw [hparse, filterExpr_eq_value]
  rfl

theorem plain_qos :
    ∀ c ∈ ([113, 111, 115] : Bytes), c ≠ 0 ∧ isOperandByte c = true := by
  rw [List.forall_mem_cons, List.forall_mem_cons, List.forall_mem_singleton]
  exact ⟨⟨by decide, rfl⟩, ⟨by decide, rfl⟩, ⟨by decide, rfl⟩⟩

/-- The field `qos` of a message. -/
def qosOperand : Operand messageSource where
  text := [113, 111, 115]
  expr := .value ⟨[113, 111, 115], .int⟩ none
  text_ne_nil := List.cons_ne_nil _ _
  plain := plain_qos
  operandExpr_text := rfl

theorem plain_one : ∀ c ∈ ([49] : Bytes), c ≠ 0 ∧ isOperandByte c = true := by
  rw [List.forall_mem_singleton]
  exact ⟨by decide, rfl⟩

def oneOperand : Operand messageSource where
  text := [49]
  expr := .const (.int 1)
  text_ne_nil := List.cons_ne_nil _ _
  plain := plain_one
  operandExpr_text := rfl

theorem parseFilterExpression_written_qos :
    ∃ need', parseFilterExpression messageSource false [40, 32, 113, 111, 115, 62, 61, 49, 41]
        = some (.ok ⟨filterExpr (.node .gte (.leaf qosOperand) (.leaf oneOperand)), [], [], need'⟩) ∧
      (filterExpr (.node .gte (.leaf qosOperand) (.leaf oneOperand))).Linked := by
  have hnone : Blanks [] := by simp [Blanks]
  have hblank : Blanks [32] := by simp [Blanks, isBlank]
  have hwritten : Spaced (Parentheses.full.tokens (.node .gte (.leaf qosOperand) (.leaf oneOperand)))
      [40, 32, 113, 111, 115, 62, 61, 49, 41] :=
    .cons .left hnone (.cons (.operand qosOperand) hblank (.cons (.binary .gte) hnone
      (.cons (.operand oneOperand) hnone (.cons .right hnone (.nil hnone)))))
  exact parseFilterExpression_written .full _ hwritten false

end RuleParser

end TinyMqtt
