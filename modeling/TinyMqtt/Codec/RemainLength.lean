import TinyMqtt.Codec.Capacity
import TinyMqtt.Codec.Segmentation

/-!
The remaining length of a packet. Its bytes may arrive over several reads:
each call of `parse_remain_length` takes the multiplier and the partial sum
from where the last one stopped. The check of the multiplier comes after the
addition, so a length is refused when its fifth byte is read, not when its
fourth one asks for it.
-/

namespace TinyMqtt

/-- `parse_remain_length` called for each chunk that arrives, until it does
not ask for more; what it leaves is followed by the other chunks. -/
def feedLength (parsing : ParsingCtx) : List Bytes → DecodeStatus × ParsingCtx × Bytes
  | [] => (.needMoreData, parsing, [])
  | chunk :: chunks =>
      match parseRemainLength parsing chunk with
      | (.needMoreData, parsing, left) =>
          let (status, parsing, more) := feedLength parsing chunks
          (status, parsing, left ++ more)
      | (status, parsing, left) => (status, parsing, left ++ chunks.flatten)

/-- The cuts make no difference. -/
theorem feedLength_eq (parsing : ParsingCtx) (chunks : List Bytes) :
    feedLength parsing chunks = parseRemainLength parsing chunks.flatten := by
  induction chunks generalizing parsing with
  | nil => rfl
  | cons chunk chunks ih =>
      have hread := parseRemainLength_read parsing chunk
      rw [List.flatten_cons, parseRemainLength_append, feedLength]
      rcases hparse : parseRemainLength parsing chunk with ⟨status, next, left⟩
      rw [hparse] at hread
      rcases hread.status with rfl | rfl | ⟨rfl, rfl⟩
      · rfl
      · rfl
      · exact ih next

/-! ### What the bytes stand for -/

/-- The sum of the low seven bits of each byte, times a power of 128. -/
def lengthValue (bytes : Bytes) : Nat := Nat.ofDigits 128 (bytes.map fun byte => byte.toNat % 128)

theorem lengthValue_cons (byte : UInt8) (bytes : Bytes) :
    lengthValue (byte :: bytes) = byte.toNat % 128 + 128 * lengthValue bytes :=
  Nat.ofDigits_cons

theorem lengthValue_lt (bytes : Bytes) : lengthValue bytes < 128 ^ bytes.length := by
  have hdigits : ∀ d ∈ bytes.map (fun byte => byte.toNat % 128), d < 128 := by
    intro d hd
    obtain ⟨byte, -, rfl⟩ := List.mem_map.mp hd
    exact Nat.mod_lt _ (by decide)
  have hlt := Nat.ofDigits_lt_base_pow_length (by decide) hdigits
  rwa [List.length_map] at hlt

/-- The bytes begin with three bytes at most that have the high bit set, and
one that does not. -/
structure LengthEnds (bytes high : Bytes) (last : UInt8) (rest : Bytes) : Prop where
  split : bytes = high ++ last :: rest
  short : high.length ≤ 3
  high : ∀ byte ∈ high, 128 ≤ byte.toNat
  last : last.toNat < 128

def AsksForFifth (bytes : Bytes) : Prop :=
  4 ≤ bytes.length ∧ ∀ byte ∈ bytes.take 4, 128 ≤ byte.toNat

instance (bytes : Bytes) : Decidable (AsksForFifth bytes) :=
  inferInstanceAs (Decidable (_ ∧ _))

section Read

variable (state : ParsingState) (typeFlags : UInt8)

/-- A byte with the high bit set, if it is none of the fifth or later. -/
theorem parseRemainLength_high {i acc : Nat} (hi : i ≤ 3) (hacc : acc < 128 ^ i) {byte : UInt8}
    (hbyte : 128 ≤ byte.toNat) (rest : Bytes) :
    parseRemainLength ⟨state, typeFlags, acc, 128 ^ i⟩ (byte :: rest) =
        parseRemainLength ⟨state, typeFlags, acc + byte.toNat % 128 * 128 ^ i, 128 ^ (i + 1)⟩ rest ∧
      acc + byte.toNat % 128 * 128 ^ i < 128 ^ (i + 1) := by
  have hmult : ¬ 128 ^ i > 128 * 128 * 128 := by
    interval_cases i <;> decide
  have hnext : 128 ^ i * 128 % 2 ^ 32 = 128 ^ (i + 1) := by
    interval_cases i <;> decide
  have hbound : acc + byte.toNat % 128 * 128 ^ i < 128 ^ (i + 1) := by
    interval_cases i <;> omega
  have hsum : (acc + byte.toNat % 128 * 128 ^ i) % 2 ^ 32 = acc + byte.toNat % 128 * 128 ^ i := by
    apply Nat.mod_eq_of_lt
    interval_cases i <;> omega
  refine ⟨?_, hbound⟩
  simp only [parseRemainLength, hmult, if_false, hsum, hnext, ge_iff_le, hbyte, if_true]

/-- The last byte of a length. -/
theorem parseRemainLength_low {i acc : Nat} (hi : i ≤ 3) (hacc : acc < 128 ^ i) {byte : UInt8}
    (hbyte : byte.toNat < 128) (rest : Bytes) :
    parseRemainLength ⟨state, typeFlags, acc, 128 ^ i⟩ (byte :: rest) =
      (.decodeOk, ⟨state, typeFlags, acc + byte.toNat % 128 * 128 ^ i, 128 ^ (i + 1)⟩, rest) := by
  have hmult : ¬ 128 ^ i > 128 * 128 * 128 := by
    interval_cases i <;> decide
  have hnext : 128 ^ i * 128 % 2 ^ 32 = 128 ^ (i + 1) := by
    interval_cases i <;> decide
  have hsum : (acc + byte.toNat % 128 * 128 ^ i) % 2 ^ 32 = acc + byte.toNat % 128 * 128 ^ i := by
    apply Nat.mod_eq_of_lt
    interval_cases i <;> omega
  simp only [parseRemainLength, hmult, if_false, hsum, hnext, ge_iff_le, hbyte.not_ge]

/-- Bytes with the high bit set, four at most, are added to the sum. -/
theorem parseRemainLength_highs {high : Bytes} (hhigh : ∀ byte ∈ high, 128 ≤ byte.toNat)
    {i acc : Nat} (hi : i + high.length ≤ 4) (hacc : acc < 128 ^ i) (rest : Bytes) :
    parseRemainLength ⟨state, typeFlags, acc, 128 ^ i⟩ (high ++ rest) =
        parseRemainLength
          ⟨state, typeFlags, acc + lengthValue high * 128 ^ i, 128 ^ (i + high.length)⟩ rest ∧
      acc + lengthValue high * 128 ^ i < 128 ^ (i + high.length) := by
  induction high generalizing i acc with
  | nil => simpa [lengthValue] using hacc
  | cons byte high ih =>
      obtain ⟨hbyte, hothers⟩ := List.forall_mem_cons.mp hhigh
      rw [List.length_cons] at hi
      obtain ⟨hstep, hbound⟩ :=
        parseRemainLength_high state typeFlags (by omega) hacc hbyte (high ++ rest)
      obtain ⟨hrest, hbound'⟩ := ih hothers (by omega) hbound
      have hsum : acc + byte.toNat % 128 * 128 ^ i + lengthValue high * 128 ^ (i + 1)
          = acc + lengthValue (byte :: high) * 128 ^ i := by
        rw [lengthValue_cons, pow_succ]
        ring
      have hcount : i + 1 + high.length = i + (byte :: high).length := by
        rw [List.length_cons]
        omega
      rw [hsum, hcount] at hrest hbound'
      rw [List.cons_append]
      exact ⟨hstep.trans hrest, hbound'⟩

theorem LengthEnds.parse {bytes high rest : Bytes} {last : UInt8}
    (h : LengthEnds bytes high last rest) :
    parseRemainLength ⟨state, typeFlags, 0, 1⟩ bytes =
      (.decodeOk, ⟨state, typeFlags, lengthValue (high ++ [last]), 128 ^ (high.length + 1)⟩,
        rest) := by
  have hshort := h.short
  obtain ⟨hhigh, hbound⟩ := parseRemainLength_highs state typeFlags h.high (show 0 + _ ≤ 4 by omega)
    (show 0 < 128 ^ 0 by decide) (last :: rest)
  rw [h.split]
  refine hhigh.trans ?_
  rw [parseRemainLength_low state typeFlags (by omega) hbound h.last]
  have hvalue : lengthValue (high ++ [last])
      = 0 + lengthValue high * 128 ^ 0 + last.toNat % 128 * 128 ^ (0 + high.length) := by
    rw [lengthValue, List.map_append, Nat.ofDigits_append, List.length_map, List.map_singleton,
      Nat.ofDigits_singleton, lengthValue]
    ring
  rw [hvalue, Nat.zero_add high.length]

theorem LengthEnds.value_le {bytes high rest : Bytes} {last : UInt8}
    (h : LengthEnds bytes high last rest) : lengthValue (high ++ [last]) ≤ 268435455 := by
  have hlt := lengthValue_lt (high ++ [last])
  rw [List.length_append, List.length_singleton] at hlt
  have hpow : 128 ^ (high.length + 1) ≤ 128 ^ 4 :=
    Nat.pow_le_pow_right (by decide) (Nat.add_le_add_right h.short 1)
  omega

/-- A fifth byte is refused, after four that asked for it. -/
theorem parseRemainLength_fifth {bytes : Bytes} (h : AsksForFifth bytes) (hlen : 5 ≤ bytes.length) :
    (parseRemainLength ⟨state, typeFlags, 0, 1⟩ bytes).1 = .badPacketFormat := by
  have htake : (bytes.take 4).length = 4 := List.length_take_of_le h.1
  obtain ⟨hhigh, -⟩ := parseRemainLength_highs state typeFlags h.2 (show 0 + _ ≤ 4 by omega)
    (show 0 < 128 ^ 0 by decide) (bytes.drop 4)
  rw [List.take_append_drop, htake] at hhigh
  obtain ⟨fifth, rest, hdrop⟩ := List.exists_cons_of_ne_nil
    (show bytes.drop 4 ≠ [] by simp [List.drop_eq_nil_iff]; omega)
  rw [hdrop] at hhigh
  exact congrArg Prod.fst hhigh

/-- Four bytes or fewer that all ask for another one. -/
theorem parseRemainLength_open {bytes : Bytes} (hhigh : ∀ byte ∈ bytes, 128 ≤ byte.toNat)
    (hlen : bytes.length ≤ 4) :
    (parseRemainLength ⟨state, typeFlags, 0, 1⟩ bytes).1 = .needMoreData := by
  obtain ⟨hread, -⟩ := parseRemainLength_highs state typeFlags hhigh (show 0 + _ ≤ 4 by omega)
    (show 0 < 128 ^ 0 by decide) []
  rw [List.append_nil] at hread
  exact congrArg Prod.fst hread

end Read

/-- A length ends within four bytes, or goes on to a fifth one, or is not
over. -/
theorem lengthEnds_or (bytes : Bytes) :
    (∃ high last rest, LengthEnds bytes high last rest) ∨
      (AsksForFifth bytes ∧ 5 ≤ bytes.length) ∨
      ((∀ byte ∈ bytes, 128 ≤ byte.toNat) ∧ bytes.length ≤ 4) := by
  by_cases hall : ∀ byte ∈ bytes.take 4, 128 ≤ byte.toNat
  · rcases Nat.lt_or_ge 4 bytes.length with hlong | hshort
    · exact Or.inr (Or.inl ⟨⟨hlong.le, hall⟩, hlong⟩)
    · rw [List.take_of_length_le hshort] at hall
      exact Or.inr (Or.inr ⟨hall, hshort⟩)
  · push Not at hall
    obtain ⟨byte, hmem, hlow⟩ := hall
    -- the first byte without the high bit
    have hsplit := List.takeWhile_append_dropWhile
      (p := fun byte : UInt8 => decide (128 ≤ byte.toNat)) (l := bytes.take 4)
    have hne : (bytes.take 4).dropWhile (fun byte => decide (128 ≤ byte.toNat)) ≠ [] := by
      intro hnil
      rw [List.dropWhile_eq_nil_iff] at hnil
      exact hlow.not_ge (of_decide_eq_true (hnil byte hmem))
    obtain ⟨last, rest, hdrop⟩ := List.exists_cons_of_ne_nil hne
    have hlast : last.toNat < 128 := by
      have hhead := List.head_dropWhile_not (fun byte : UInt8 => decide (128 ≤ byte.toNat)) hne
      simp only [hdrop, List.head_cons, decide_eq_false_iff_not, not_le] at hhead
      exact hhead
    refine Or.inl ⟨(bytes.take 4).takeWhile (fun byte => decide (128 ≤ byte.toNat)), last,
      rest ++ bytes.drop 4, ⟨?_, ?_, ?_, hlast⟩⟩
    · rw [hdrop] at hsplit
      rw [← List.cons_append, ← List.append_assoc, hsplit, List.take_append_drop]
    · have hlen := congrArg List.length hsplit
      rw [hdrop, List.length_append, List.length_cons, List.length_take] at hlen
      omega
    · intro byte hbyte
      have hkept := List.mem_takeWhile_imp hbyte
      exact of_decide_eq_true hkept

/-! ### The field -/

/-- A header is made for the lengths of four bytes. -/
theorem makeFixedHeader_ok_iff (type : PacketType) (flags : Nat) (n : UInt32) :
    (∃ bytes, makeFixedHeader type flags n.toNat = .ok bytes) ↔ n.toNat ≤ 268435455 := by
  constructor
  · rintro ⟨bytes, hsent⟩
    by_cases hlong : (remainLengthBytes 5 n.toNat).length > 4
    · rw [makeFixedHeader, if_pos hlong] at hsent
      cases hsent
    · have hlt := lt_of_length_remainLengthBytes (show 4 < 5 by decide) (not_lt.mp hlong)
      omega
  · intro hn
    exact ⟨_, makeFixedHeader_eq type flags hn⟩

/-- Over every cut of the bytes the length is complete with its first byte
without the high bit, if that is one of the first four, and malformed when a
fifth one is read; what the encoder makes of a number is read back. -/
theorem remainLength_field (typeFlags : UInt8) (chunks : List Bytes) :
    ((feedLength ⟨.parsingRemainLength, typeFlags, 0, 1⟩ chunks).1 = .decodeOk ↔
        ∃ high last rest, LengthEnds chunks.flatten high last rest) ∧
      (∀ high last rest, LengthEnds chunks.flatten high last rest →
        feedLength ⟨.parsingRemainLength, typeFlags, 0, 1⟩ chunks =
          (.decodeOk, ⟨.parsingRemainLength, typeFlags, lengthValue (high ++ [last]),
            128 ^ (high.length + 1)⟩, rest) ∧
        lengthValue (high ++ [last]) ≤ 268435455) ∧
      ((feedLength ⟨.parsingRemainLength, typeFlags, 0, 1⟩ chunks).1 = .badPacketFormat ↔
        AsksForFifth chunks.flatten ∧ 5 ≤ chunks.flatten.length) ∧
      ∀ (type : PacketType) (flags : Nat) (n : UInt32),
        ((∃ bytes, makeFixedHeader type flags n.toNat = .ok bytes) ↔ n.toNat ≤ 268435455) ∧
        ∀ header bytes rest, makeFixedHeader type flags n.toNat = .ok (header :: bytes) →
          chunks.flatten = bytes ++ rest →
          ∃ multiplier, feedLength ⟨.parsingRemainLength, typeFlags, 0, 1⟩ chunks =
            (.decodeOk, ⟨.parsingRemainLength, typeFlags, n.toNat, multiplier⟩, rest) := by
  rw [feedLength_eq]
  have hcomplete : ∀ high last rest, LengthEnds chunks.flatten high last rest →
      parseRemainLength ⟨.parsingRemainLength, typeFlags, 0, 1⟩ chunks.flatten =
        (.decodeOk, ⟨.parsingRemainLength, typeFlags, lengthValue (high ++ [last]),
          128 ^ (high.length + 1)⟩, rest) :=
    fun high last rest h => h.parse .parsingRemainLength typeFlags
  have hcases := lengthEnds_or chunks.flatten
  refine ⟨⟨?_, ?_⟩, ?_, ⟨?_, ?_⟩, ?_⟩
  · intro hok
    rcases hcases with hends | ⟨hasks, hlen⟩ | ⟨hhigh, hlen⟩
    · exact hends
    · rw [parseRemainLength_fifth _ _ hasks hlen] at hok
      cases hok
    · rw [parseRemainLength_open _ _ hhigh hlen] at hok
      cases hok
  · rintro ⟨high, last, rest, h⟩
    rw [hcomplete high last rest h]
  · intro high last rest h
    exact ⟨hcomplete high last rest h, h.value_le⟩
  · intro hbad
    rcases hcases with ⟨high, last, rest, h⟩ | hfifth | ⟨hhigh, hlen⟩
    · rw [hcomplete high last rest h] at hbad
      cases hbad
    · exact hfifth
    · rw [parseRemainLength_open _ _ hhigh hlen] at hbad
      cases hbad
  · rintro ⟨hasks, hlen⟩
    exact parseRemainLength_fifth _ _ hasks hlen
  · intro type flags n
    refine ⟨makeFixedHeader_ok_iff type flags n, ?_⟩
    intro header bytes rest hsent hflatten
    have hn := (makeFixedHeader_ok_iff type flags n).mp ⟨_, hsent⟩
    rw [makeFixedHeader_eq type flags hn] at hsent
    obtain ⟨-, rfl⟩ := List.cons.inj (Except.ok.inj hsent)
    rw [hflatten]
    exact parseRemainLength_remainLengthBytes typeFlags rest hn

/-- After four bytes that ask for another one nothing is refused yet. -/
theorem not_refused_four :
    ¬((feedLength ⟨.parsingRemainLength, 0x30, 0, 1⟩ [[128, 128, 128, 128]]).1 = .badPacketFormat ↔
      AsksForFifth [[128, 128, 128, 128]].flatten) := by
  decide +kernel

end TinyMqtt
