import TinyMqtt.Config.ConfigFile

/-!
Files whose lines are short: `fgets` gives their lines back one by one.
-/

namespace TinyMqtt.ConfigFile

/-- A line, without its newline, that is shorter than what `fgets` has room
for. -/
structure ShortLine (line : Bytes) : Prop where
  single : newline ∉ line
  short : line.length < maxLineSize - 1

def fileOf (lines : List Bytes) (last : Bytes) : Bytes :=
  lines.flatMap (fun line => line ++ [newline]) ++ last

theorem fileOf_cons (line : Bytes) (lines : List Bytes) (last : Bytes) :
    fileOf (line :: lines) last = line ++ newline :: fileOf lines last := by
  simp [fileOf]

theorem fgets_line {n : Nat} {line : Bytes} (hsingle : newline ∉ line) (hshort : line.length < n)
    (rest : Bytes) : fgets n (line ++ newline :: rest) = (line ++ [newline], rest) := by
  induction line generalizing n with
  | nil =>
      obtain ⟨n, rfl⟩ := Nat.exists_eq_succ_of_ne_zero (Nat.ne_zero_of_lt hshort)
      exact if_pos rfl
  | cons c line ih =>
      obtain ⟨n, rfl⟩ := Nat.exists_eq_succ_of_ne_zero (Nat.ne_zero_of_lt hshort)
      obtain ⟨hc, hline⟩ := not_or.mp (mt List.mem_cons.mpr hsingle)
      have hne : ¬c = newline := fun h => hc h.symm
      rw [List.cons_append, fgets, if_neg hne, ih hline (Nat.succ_lt_succ_iff.mp hshort)]
      rfl

theorem fgets_last {n : Nat} {line : Bytes} (hsingle : newline ∉ line) (hshort : line.length ≤ n) :
    fgets n line = (line, []) := by
  induction line generalizing n with
  | nil => cases n <;> rfl
  | cons c line ih =>
      obtain ⟨n, rfl⟩ := Nat.exists_eq_succ_of_ne_zero (Nat.ne_zero_of_lt hshort)
      obtain ⟨hc, hline⟩ := not_or.mp (mt List.mem_cons.mpr hsingle)
      have hne : ¬c = newline := fun h => hc h.symm
      rw [fgets, if_neg hne, ih hline (Nat.succ_le_succ_iff.mp hshort)]

theorem fgets_left (n : Nat) (content : Bytes) : (fgets n content).2.length ≤ content.length := by
  induction content generalizing n with
  | nil => cases n <;> rfl
  | cons c content ih =>
      cases n with
      | zero => exact le_rfl
      | succ n =>
          rw [fgets]
          by_cases hc : c = newline
          · simp [hc]
          · simpa [hc] using Nat.le_succ_of_le (ih n)

/-- A call takes something out of a file that is not at its end. -/
theorem fgets_left_cons (n : Nat) (c : UInt8) (content : Bytes) :
    (fgets (n + 1) (c :: content)).2.length ≤ content.length := by
  rw [fgets]
  by_cases hc : c = newline
  · simp [hc]
  · simpa [hc] using fgets_left n content

theorem fgetsLoop_eq {fuel : Nat} {content : Bytes} (hfuel : content.length ≤ fuel) :
    fgetsLoop fuel content = pieces content := by
  suffices h : ∀ m n (content : Bytes), content.length ≤ m → content.length ≤ n →
      fgetsLoop m content = fgetsLoop n content from h _ _ _ hfuel le_rfl
  clear hfuel
  intro m
  induction m with
  | zero =>
      intro n content hm hn
      obtain rfl := List.length_eq_zero_iff.mp (Nat.le_zero.mp hm)
      cases n <;> rfl
  | succ m ih =>
      intro n content hm hn
      cases content with
      | nil => cases n <;> rfl
      | cons c content =>
          obtain ⟨n, rfl⟩ := Nat.exists_eq_succ_of_ne_zero (Nat.ne_zero_of_lt hn)
          have hleft := fgets_left_cons (maxLineSize - 2) c content
          have hrest := ih n (fgets (maxLineSize - 1) (c :: content)).2
            (hleft.trans (Nat.succ_le_succ_iff.mp hm)) (hleft.trans (Nat.succ_le_succ_iff.mp hn))
          exact congrArg ((fgets (maxLineSize - 1) (c :: content)).1 :: ·) hrest

theorem pieces_eq {content buf rest : Bytes} (hcontent : content ≠ [])
    (hgets : fgets (maxLineSize - 1) content = (buf, rest)) :
    pieces content = buf :: pieces rest := by
  obtain ⟨c, content, rfl⟩ := List.exists_cons_of_ne_nil hcontent
  have hleft := fgets_left_cons (maxLineSize - 2) c content
  change (fgets (maxLineSize - 1) (c :: content)).2.length ≤ content.length at hleft
  rw [hgets] at hleft
  change (fgets (maxLineSize - 1) (c :: content)).1 ::
    fgetsLoop content.length (fgets (maxLineSize - 1) (c :: content)).2 = _
  rw [hgets, fgetsLoop_eq hleft]

/-- `fgets` gives the lines of a file with short lines. -/
theorem pieces_fileOf {lines : List Bytes} {last : Bytes} (hlines : ∀ line ∈ lines, ShortLine line)
    (hlast : ShortLine last) :
    pieces (fileOf lines last) =
      lines.map (fun line => line ++ [newline]) ++ if last = [] then [] else [last] := by
  induction lines with
  | nil =>
      by_cases hempty : last = []
      · subst hempty
        rfl
      · have hgets := fgets_last hlast.single hlast.short.le
        rw [show fileOf [] last = last from rfl, pieces_eq hempty hgets, if_neg hempty]
        rfl
  | cons line lines ih =>
      obtain ⟨hline, hrest⟩ := List.forall_mem_cons.mp hlines
      have hgets := fgets_line hline.single hline.short (fileOf lines last)
      rw [fileOf_cons, pieces_eq (by simp) hgets, ih hrest]
      rfl

/-- Every file whose lines are short is such a file. -/
theorem exists_fileOf {content : Bytes}
    (hshort : ∀ line ∈ content.splitOn newline, line.length < maxLineSize - 1) :
    ∃ lines last, content = fileOf lines last ∧ (∀ line ∈ lines, ShortLine line) ∧
      ShortLine last := by
  induction hlength : content.length using Nat.strong_induction_on generalizing content with
  | h n ih =>
      by_cases hmem : newline ∈ content
      · obtain ⟨line, rest, rfl, hline⟩ := List.eq_append_cons_of_mem hmem
        rw [List.splitOn_append_cons_self_of_not_mem hline, List.forall_mem_cons] at hshort
        obtain ⟨lines, last, rfl, hlines, hlast⟩ := ih rest.length
          (by rw [← hlength, List.length_append, List.length_cons]; omega) hshort.2 rfl
        exact ⟨line :: lines, last, (fileOf_cons _ _ _).symm,
          List.forall_mem_cons.mpr ⟨⟨hline, hshort.1⟩, hlines⟩, hlast⟩
      · rw [List.splitOn_eq_singleton hmem, List.forall_mem_singleton] at hshort
        exact ⟨[], content, rfl, List.forall_mem_nil _, hmem, hshort⟩

theorem fileOf_splitOn {lines : List Bytes} {last : Bytes} (hlines : ∀ line ∈ lines, ShortLine line)
    (hlast : ShortLine last) : (fileOf lines last).splitOn newline = lines ++ [last] := by
  induction lines with
  | nil => exact List.splitOn_eq_singleton hlast.single
  | cons line lines ih =>
      obtain ⟨hline, hrest⟩ := List.forall_mem_cons.mp hlines
      rw [fileOf_cons, List.splitOn_append_cons_self_of_not_mem hline.single, ih hrest]
      rfl

end TinyMqtt.ConfigFile
