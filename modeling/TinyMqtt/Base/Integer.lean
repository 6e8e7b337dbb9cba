import Mathlib.Data.Nat.Digits.Lemmas
import TinyMqtt.Base.Str

/-!
Integers as text (`base/mqtt_str.c`). The arithmetic of `int64_t` is signed, so
an operation whose result does not fit has no result.
-/

namespace TinyMqtt

/-! ### Reading -/

/-- The number that `strtoll` makes of a sign and digits. It stops at the ends
of its type. -/
def signedNumber (negative : Bool) (digits : Bytes) : Int :=
  if negative then max (-(digitsValue digits : Int)) (-2 ^ 63)
  else min (digitsValue digits : Int) (2 ^ 63 - 1)

/-- `tmq_str_to_int`: the text must be over where `strtoll` stops. Without a
digit it stops at the first byte of the text, before the skipped spaces. -/
def tmqStrToInt (s : Bytes) : Option Int :=
  let body := s.dropWhile isSpace
  let negative := body.head? = some 45
  let digits := if negative ∨ body.head? = some 43 then body.tail else body
  if digits.takeWhile isDigit = [] then
    if s = [] then some 0 else none
  else if digits.dropWhile isDigit = [] then some (signedNumber negative digits)
  else none

/-! ### Writing -/

def checkedInt64 (n : Int) : Option Int := if -2 ^ 63 ≤ n ∧ n < 2 ^ 63 then some n else none

def digitTable : Bytes := [48, 49, 50, 51, 52, 53, 54, 55, 56, 57, 65, 66, 67, 68, 69, 70]

/-- The loop of `tmq_str_parse_int` that writes digits to `tmp`, the lowest one
first, with the number of places left there. -/
def parseIntLoop (base : Int) : Nat → Int → Option Bytes
  | 0, s => if 0 < s then none else some []
  | places + 1, s =>
      if 0 < s then do
        let c ← digitTable[(s.tmod base).toNat]?
        let s ← checkedInt64 (s.tdiv base)
        let tmp ← parseIntLoop base places s
        some (c :: tmp)
      else some []

/-- The number without its sign: `s = -s` when it is negative. -/
def magnitude (s : Int) : Option Int := if s < 0 then checkedInt64 (-s) else some s

def parseIntDigits (base s : Int) : Option Bytes :=
  if s = 0 then some [48] else (parseIntLoop base 100 s).map List.reverse

/-- `tmq_str_parse_int`, which is a null pointer for a base that it does not
know. -/
def tmqStrParseInt (v : Int64) (base : Int) : Option (Option Bytes) :=
  if base < 2 ∨ 16 < base then some none
  else do
    let s ← magnitude v.toInt
    let digits ← parseIntDigits base s
    some (some ((if v.toInt < 0 then [45] else []) ++ digits))

/-! ### Numerals -/

def digitByte (d : Nat) : UInt8 := digitTable.getD d 0

/-- The text is a minus sign, if the number is negative, and the digits of its
absolute value, the highest one first and not zero unless it is the only one. -/
def IsNumeral (base : Nat) (v : Int) (text : Bytes) : Prop :=
  ∃ digits : List Nat, text = (if v < 0 then [45] else []) ++ digits.map digitByte ∧
    (∀ d ∈ digits, d < base) ∧ Nat.ofDigits base digits.reverse = v.natAbs ∧
    digits ≠ [] ∧ (digits.head? = some 0 → digits = [0])

theorem getElem?_digitTable {d : Nat} (hd : d < 16) : digitTable[d]? = some (digitByte d) := by
  interval_cases d <;> rfl

theorem toNat_digitByte {d : Nat} (hd : d < 10) : (digitByte d).toNat = 48 + d := by
  interval_cases d <;> rfl

theorem isDigit_digitByte {d : Nat} (hd : d < 10) : isDigit (digitByte d) = true := by
  interval_cases d <;> rfl

theorem digitsValue_concat (digits : Bytes) (c : UInt8) :
    digitsValue (digits ++ [c]) = 10 * digitsValue digits + (c.toNat - 48) := by
  rw [digitsValue, List.foldl_append]
  rfl

/-- Reading decimal digits gives the number that they stand for. -/
theorem digitsValue_map {digits : List Nat} (h : ∀ d ∈ digits, d < 10) :
    digitsValue (digits.map digitByte) = Nat.ofDigits 10 digits.reverse := by
  induction digits using List.reverseRecOn with
  | nil => rfl
  | append_singleton digits d ih =>
      have hd : d < 10 := h d (by simp)
      have hrest : ∀ d ∈ digits, d < 10 := fun d hmem => h d (List.mem_append_left _ hmem)
      rw [List.map_append, List.map_singleton, digitsValue_concat, ih hrest, toNat_digitByte hd,
        List.reverse_append, List.reverse_singleton, List.singleton_append, Nat.ofDigits_cons]
      omega

/-- `tmq_str_to_int` reads a decimal numeral of `int64_t` back. -/
theorem IsNumeral.tmqStrToInt {v : Int} {text : Bytes} (h : IsNumeral 10 v text)
    (hmin : -2 ^ 63 ≤ v) (hmax : v < 2 ^ 63) : tmqStrToInt text = some v := by
  obtain ⟨digits, rfl, hlt, hvalue, hne, -⟩ := h
  have hall : ∀ c ∈ digits.map digitByte, isDigit c = true := by
    intro c hc
    obtain ⟨d, hd, rfl⟩ := List.mem_map.mp hc
    exact isDigit_digitByte (hlt d hd)
  have htake : (digits.map digitByte).takeWhile isDigit = digits.map digitByte :=
    List.takeWhile_eq_self_iff.mpr hall
  have hdrop : (digits.map digitByte).dropWhile isDigit = [] :=
    List.dropWhile_eq_nil_iff.mpr hall
  have hnonempty : digits.map digitByte ≠ [] := by simpa using hne
  have hdigits : digitsValue (digits.map digitByte) = v.natAbs := (digitsValue_map hlt).trans hvalue
  obtain ⟨first, rest, hcons⟩ := List.exists_cons_of_ne_nil hnonempty
  have hfirst : isDigit first = true := hall first (by rw [hcons]; exact List.mem_cons_self)
  have hspace : isSpace first = false := by
    simp only [isDigit, decide_eq_true_eq, UInt8.le_iff_toNat_le] at hfirst
    simp only [isSpace, UInt8.le_iff_toNat_le, decide_eq_false_iff_not, ← UInt8.toNat_inj]
    simp only [UInt8.reduceToNat] at hfirst ⊢
    omega
  have hsign : first ≠ 45 ∧ first ≠ 43 := by
    constructor <;> rintro rfl <;> cases hfirst
  by_cases hneg : v < 0
  · have hbody : ((45 : UInt8) :: digits.map digitByte).dropWhile isSpace
        = 45 :: digits.map digitByte := rfl
    rw [if_pos hneg, List.singleton_append, TinyMqtt.tmqStrToInt, hbody]
    simp only [List.head?_cons, true_or, if_true, List.tail_cons, htake, hnonempty, if_false, hdrop,
      signedNumber, decide_true, hdigits, Option.some.injEq]
    omega
  · have hbody : (digits.map digitByte).dropWhile isSpace = digits.map digitByte := by
      rw [hcons, List.dropWhile_cons_of_neg (by simp [hspace])]
    have hhead : (digits.map digitByte).head? = some first := by
      rw [hcons]
      rfl
    rw [if_neg hneg, List.nil_append, TinyMqtt.tmqStrToInt, hbody, hhead]
    simp only [Option.some.injEq, hsign.1, hsign.2, or_self, if_false, htake, hnonempty, hdrop,
      if_true, signedNumber, decide_false, Bool.false_eq_true, hdigits]
    omega

/-! ### The digit loop -/

/-- The loop writes the digits of a number that fits. Its arithmetic does not
overflow, and there are places enough. -/
theorem parseIntLoop_eq {base : Nat} (hbase : 1 < base) (hsmall : base ≤ 16) {places n : Nat}
    (hn : n < 2 ^ 63) (hplaces : (Nat.digits base n).length ≤ places) :
    parseIntLoop base places n = some ((Nat.digits base n).map digitByte) := by
  induction places generalizing n with
  | zero =>
      have hnil : Nat.digits base n = [] := List.eq_nil_of_length_eq_zero (by omega)
      have hzero : n = 0 := Nat.digits_eq_nil_iff_eq_zero.mp hnil
      subst hzero
      simp [parseIntLoop]
  | succ places ih =>
      rcases Nat.eq_zero_or_pos n with rfl | hpos
      · simp [parseIntLoop]
      · rw [Nat.digits_def' hbase hpos, List.length_cons] at hplaces
        have hdigit : n % base < base := Nat.mod_lt n (by omega)
        have hquotient : n / base < 2 ^ 63 := (Nat.div_le_self n base).trans_lt hn
        have hmod : ((n : Int).tmod base).toNat = n % base := by
          rw [← Int.ofNat_tmod]
          rfl
        have hdiv : checkedInt64 ((n : Int).tdiv base) = some ((n / base : Nat) : Int) := by
          rw [← Int.ofNat_tdiv]
          generalize n / base = q at hquotient
          exact if_pos (by omega)
        have hrest := ih hquotient (by omega)
        have hint : (0 : Int) < n := by omega
        rw [parseIntLoop, if_pos hint, hmod, hdiv, getElem?_digitTable (hdigit.trans_le hsmall),
          Nat.digits_def' hbase hpos]
        simp only [Option.bind_eq_bind, Option.bind_some, hrest, List.map_cons]

theorem length_digits_le {base n : Nat} (hbase : 1 < base) (hn : n < 2 ^ 63) :
    (Nat.digits base n).length ≤ 100 := by
  apply (Nat.digits_length_le_iff hbase n).mpr
  have hpow : 2 ^ 63 ≤ base ^ 100 :=
    (Nat.pow_le_pow_right (by decide) (by decide)).trans (Nat.pow_le_pow_left hbase 100)
  exact hn.trans_le hpow

/-- The digits of a number, zero included. -/
theorem parseIntDigits_eq {base : Nat} (hbase : 1 < base) (hsmall : base ≤ 16) {n : Nat}
    (hn : n < 2 ^ 63) :
    ∃ digits : List Nat, parseIntDigits base n = some (digits.map digitByte) ∧
      (∀ d ∈ digits, d < base) ∧ Nat.ofDigits base digits.reverse = n ∧ digits ≠ [] ∧
      (digits.head? = some 0 → digits = [0]) := by
  rcases Nat.eq_zero_or_pos n with rfl | hpos
  · refine ⟨[0], rfl, ?_, rfl, List.cons_ne_nil 0 [], fun _ => rfl⟩
    intro d hd
    rw [List.mem_singleton.mp hd]
    omega
  · have hnonzero : (n : Int) ≠ 0 := by omega
    have hne : Nat.digits base n ≠ [] := Nat.digits_ne_nil_iff_ne_zero.mpr hpos.ne'
    refine ⟨(Nat.digits base n).reverse, ?_, ?_, ?_, ?_, ?_⟩
    · rw [parseIntDigits, if_neg hnonzero,
        parseIntLoop_eq hbase hsmall hn (length_digits_le hbase hn), List.map_reverse]
      rfl
    · intro d hd
      exact Nat.digits_lt_base hbase (List.mem_reverse.mp hd)
    · rw [List.reverse_reverse, Nat.ofDigits_digits]
    · simpa using hne
    · intro hhead
      rw [List.head?_reverse, List.getLast?_eq_some_getLast hne] at hhead
      exact absurd (Option.some.inj hhead) (Nat.getLast_digit_ne_zero base hpos.ne')

/-! ### Conversion -/

/-- Every number but the least is written as its numeral. -/
theorem exists_numeral {v : Int64} (hlow : v.toInt ≠ -2 ^ 63) {b : Nat} (hone : 1 < b)
    (hsmall : b ≤ 16) :
    ∃ text, tmqStrParseInt v b = some (some text) ∧ IsNumeral b v.toInt text := by
  have hmin := v.le_toInt
  have hmax := v.toInt_lt
  have hmagnitude : magnitude v.toInt = some (v.toInt.natAbs : Int) := by
    by_cases hneg : v.toInt < 0
    · rw [magnitude, if_pos hneg, checkedInt64, if_pos (by omega), Option.some.injEq]
      omega
    · rw [magnitude, if_neg hneg, Option.some.injEq]
      omega
  obtain ⟨digits, hdigits, hlt, hvalue, hnonempty, hlead⟩ :=
    parseIntDigits_eq hone hsmall (show v.toInt.natAbs < 2 ^ 63 by omega)
  refine ⟨_, ?_, digits, rfl, hlt, hvalue, hnonempty, hlead⟩
  rw [tmqStrParseInt, if_neg (by omega), hmagnitude]
  simp only [Option.bind_eq_bind, Option.bind_some, hdigits]

/-- The conversion has a result; it is the numeral of the number, and a decimal
one is read back. -/
def ConvertsInt (v : Int64) (base : Int) : Prop :=
  ∃ text, tmqStrParseInt v base = some (some text) ∧ IsNumeral base.toNat v.toInt text ∧
    (base = 10 → tmqStrToInt text = some v.toInt)

/-- Nothing but the negation of the least number overflows. -/
theorem convertsInt_iff (v : Int64) {base : Int} (hbase : 2 ≤ base ∧ base ≤ 16) :
    ConvertsInt v base ↔ v ≠ Int64.minValue := by
  have hknown : ¬(base < 2 ∨ 16 < base) := by omega
  obtain ⟨b, rfl⟩ := Int.eq_ofNat_of_zero_le (show 0 ≤ base by omega)
  obtain ⟨hone, hsmall⟩ : 1 < b ∧ b ≤ 16 := by omega
  constructor
  · rintro ⟨text, htext, -⟩ rfl
    rw [tmqStrParseInt, if_neg hknown] at htext
    cases htext
  · intro hne
    have hlow : v.toInt ≠ -2 ^ 63 := by
      intro heq
      apply hne
      rw [← Int64.toInt_inj, heq]
      rfl
    obtain ⟨text, htext, hnumeral⟩ := exists_numeral hlow hone hsmall
    refine ⟨text, htext, hnumeral, ?_⟩
    intro hten
    obtain rfl : b = 10 := by omega
    exact hnumeral.tmqStrToInt v.le_toInt v.toInt_lt

theorem convertsInt_iff_decimal : ConvertsInt (-12) 10 ↔ (-12 : Int64) ≠ Int64.minValue :=
  convertsInt_iff (-12) ⟨by decide, by decide⟩

/-- The negation of the least number has no result. -/
theorem not_convertsInt_minValue : ¬ConvertsInt Int64.minValue 10 := by
  rintro ⟨text, htext, -⟩
  cases htext

end TinyMqtt
