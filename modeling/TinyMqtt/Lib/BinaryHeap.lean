import Mathlib.Order.Interval.Finset.Nat
import Mathlib.Logic.Equiv.Basic
import Mathlib.Tactic

/-!
Binary heaps in an array whose first slot is 1, so that the parent of slot `i`
is slot `i / 2`. An element on its way to its place is kept out of the array:
there is a hole, and the element would make a heap if it stood in the hole, but
for the order towards the parent on the way up, or towards the children on the
way down.
-/

namespace BinaryHeap

variable {α κ : Type*} {slot : Nat → α} {size : Nat}

/-! ### Contents -/

/-- The elements in slots 1 to `size`. -/
def contents (slot : Nat → α) (size : Nat) : Multiset α := (Finset.Icc 1 size).val.map slot

theorem mem_contents {a : α} : a ∈ contents slot size ↔ ∃ i, (1 ≤ i ∧ i ≤ size) ∧ slot i = a := by
  simp [contents]

@[simp] theorem contents_zero (slot : Nat → α) : contents slot 0 = 0 := rfl

theorem contents_congr {slot' : Nat → α} (h : ∀ i, 1 ≤ i → i ≤ size → slot' i = slot i) :
    contents slot' size = contents slot size := by
  apply Multiset.map_congr rfl
  intro i hi
  obtain ⟨hpos, hle⟩ := Finset.mem_Icc.mp (Finset.mem_val.mp hi)
  exact h i hpos hle

theorem contents_succ (slot : Nat → α) (size : Nat) :
    contents slot (size + 1) = slot (size + 1) ::ₘ contents slot size := by
  have hnew : size + 1 ∉ Finset.Icc 1 size := by simp
  have hrange : Finset.Icc 1 (size + 1) = Finset.cons (size + 1) (Finset.Icc 1 size) hnew := by
    ext i
    simp only [Finset.mem_Icc, Finset.mem_cons]
    omega
  rw [contents, hrange, Finset.cons_val, Multiset.map_cons]
  rfl

theorem contents_update_succ (slot : Nat → α) (size : Nat) (a : α) :
    contents (Function.update slot (size + 1) a) (size + 1) = a ::ₘ contents slot size := by
  rw [contents_succ, Function.update_self]
  congr 1
  apply contents_congr
  intro i _ hle
  have hne : i ≠ size + 1 := by omega
  exact Function.update_of_ne hne a slot

/-- The hole moves: what stood where it goes fills the place it leaves. -/
theorem contents_move {i j : Nat} (hi : 1 ≤ i ∧ i ≤ size) (hj : 1 ≤ j ∧ j ≤ size) (hne : j ≠ i)
    (x : α) :
    contents (Function.update (Function.update slot i (slot j)) j x) size
      = contents (Function.update slot i x) size := by
  have hswap : Function.update (Function.update slot i (slot j)) j x
      = Function.update slot i x ∘ Equiv.swap i j := by
    funext k
    by_cases hkj : k = j
    · rw [hkj, Function.update_self, Function.comp_apply, Equiv.swap_apply_right,
        Function.update_self]
    by_cases hki : k = i
    · rw [hki, Function.update_of_ne hne.symm, Function.update_self, Function.comp_apply,
        Equiv.swap_apply_left, Function.update_of_ne hne]
    · rw [Function.update_of_ne hkj, Function.update_of_ne hki, Function.comp_apply,
        Equiv.swap_apply_of_ne_of_ne hki hkj, Function.update_of_ne hki]
  have hrange : (Finset.Icc 1 size).map (Equiv.swap i j).toEmbedding = Finset.Icc 1 size := by
    apply Finset.eq_of_subset_of_card_le
    · intro k hk
      obtain ⟨l, hl, rfl⟩ := Finset.mem_map.mp hk
      change Equiv.swap i j l ∈ _
      by_cases hli : l = i
      · rw [hli, Equiv.swap_apply_left]
        exact Finset.mem_Icc.mpr hj
      by_cases hlj : l = j
      · rw [hlj, Equiv.swap_apply_right]
        exact Finset.mem_Icc.mpr hi
      · rwa [Equiv.swap_apply_of_ne_of_ne hli hlj]
    · rw [Finset.card_map]
  rw [contents, hswap, ← Multiset.map_map]
  congr 1
  exact congrArg Finset.val hrange

/-- The last element replaces the first one. -/
theorem contents_replace_first (slot : Nat → α) (size : Nat) :
    slot 1 ::ₘ contents (Function.update slot 1 (slot (size + 1))) size
      = contents slot (size + 1) := by
  rw [← contents_update_succ]
  rcases Nat.eq_zero_or_pos size with rfl | hpos
  · rw [Function.update_idem, Function.update_eq_self]
  · rw [contents_move ⟨le_rfl, Nat.le_add_left 1 size⟩ ⟨Nat.le_add_left 1 size, le_rfl⟩ (by omega),
      Function.update_eq_self]

/-! ### Order -/

variable [LinearOrder κ] {key : α → κ}

/-- No key is below that of the parent's slot. -/
def Ordered (key : α → κ) (slot : Nat → α) (size : Nat) : Prop :=
  ∀ i, 1 < i → i ≤ size → key (slot (i / 2)) ≤ key (slot i)

/-- The first slot has the least key. -/
theorem Ordered.root_le (h : Ordered key slot size) {i : Nat} (hpos : 1 ≤ i) (hle : i ≤ size) :
    key (slot 1) ≤ key (slot i) := by
  induction i using Nat.strongRecOn with
  | ind i ih =>
      rcases Nat.eq_or_lt_of_le hpos with rfl | hlt
      · exact le_rfl
      · have hparent := ih (i / 2) (by omega) (by omega) (by omega)
        exact hparent.trans (h i hlt hle)

theorem Ordered.root_le_of_mem (h : Ordered key slot size) {a : α} (ha : a ∈ contents slot size) :
    key (slot 1) ≤ key a := by
  obtain ⟨i, ⟨hpos, hle⟩, rfl⟩ := mem_contents.mp ha
  exact h.root_le hpos hle

theorem ordered_of_size_le_one (h : size ≤ 1) : Ordered key slot size := by
  intro i hlt hle
  omega

/-- Keys that are the same in the slots make no difference. -/
theorem Ordered.congr {key' : α → κ} (h : Ordered key slot size)
    (hsame : ∀ a ∈ contents slot size, key' a = key a) : Ordered key' slot size := by
  intro i hlt hle
  have hparent : slot (i / 2) ∈ contents slot size := mem_contents.mpr ⟨i / 2, by omega, rfl⟩
  have hchild : slot i ∈ contents slot size := mem_contents.mpr ⟨i, by omega, rfl⟩
  rw [hsame _ hparent, hsame _ hchild]
  exact h i hlt hle

/-- The slots are in order where the hole has no part. -/
def OrderedExcept (key : α → κ) (slot : Nat → α) (size hole : Nat) : Prop :=
  ∀ i, 1 < i → i ≤ size → i ≠ hole → i / 2 ≠ hole → key (slot (i / 2)) ≤ key (slot i)

/-- What stands above the hole belongs above what stands below it. -/
def AroundHole (key : α → κ) (slot : Nat → α) (size hole : Nat) : Prop :=
  1 < hole → ∀ i, i / 2 = hole → i ≤ size → key (slot (hole / 2)) ≤ key (slot i)

/-! ### On the way up -/

/-- The element belongs above what stands below the hole. -/
structure UpHole (key : α → κ) (slot : Nat → α) (size hole : Nat) (x : α) : Prop where
  except : OrderedExcept key slot size hole
  around : AroundHole key slot size hole
  below : ∀ i, i / 2 = hole → i ≤ size → key x ≤ key (slot i)

variable {hole : Nat} {x : α}

/-- A hole behind the last slot. -/
theorem Ordered.upHole (h : Ordered key slot size) (x : α) : UpHole key slot (size + 1) (size + 1) x where
  except := by
    intro i hlt hle hne _
    exact h i hlt (by omega)
  around := by
    intro _ i hhalf hle
    omega
  below := by
    intro i hhalf hle
    omega

/-- The parent comes down into the hole. -/
theorem UpHole.move (h : UpHole key slot size hole x) (hhole : 1 < hole) (hle : hole ≤ size)
    (hlt : key x < key (slot (hole / 2))) :
    UpHole key (Function.update slot hole (slot (hole / 2))) size (hole / 2) x where
  except := by
    intro i hone hsize hne hhalf
    have hni : i ≠ hole := by
      rintro rfl
      exact hhalf rfl
    rw [Function.update_of_ne hni]
    by_cases hbelow : i / 2 = hole
    · rw [hbelow, Function.update_self]
      exact h.around hhole i hbelow hsize
    · rw [Function.update_of_ne hbelow]
      exact h.except i hone hsize hni hbelow
  around := by
    intro hpos i hhalf hsize
    have hgrand : hole / 2 / 2 ≠ hole := by omega
    have habove : key (slot (hole / 2 / 2)) ≤ key (slot (hole / 2)) :=
      h.except (hole / 2) hpos (by omega) (by omega) hgrand
    rw [Function.update_of_ne hgrand]
    by_cases hni : i = hole
    · rwa [hni, Function.update_self]
    · rw [Function.update_of_ne hni]
      have hside := h.except i (by omega) hsize hni (by omega)
      rw [hhalf] at hside
      exact habove.trans hside
  below := by
    intro i hhalf hsize
    by_cases hni : i = hole
    · rw [hni, Function.update_self]
      exact hlt.le
    · rw [Function.update_of_ne hni]
      have hside := h.except i (by omega) hsize hni (by omega)
      rw [hhalf] at hside
      exact hlt.le.trans hside

/-- The element takes its place below a parent that is no greater. -/
theorem UpHole.finish (h : UpHole key slot size hole x)
    (hstop : 1 < hole → key (slot (hole / 2)) ≤ key x) :
    Ordered key (Function.update slot hole x) size := by
  intro i hone hsize
  by_cases hni : i = hole
  · have hparent : i / 2 ≠ hole := by omega
    rw [Function.update_of_ne hparent, hni, Function.update_self]
    exact hstop (hni ▸ hone)
  · rw [Function.update_of_ne hni]
    by_cases hbelow : i / 2 = hole
    · rw [hbelow, Function.update_self]
      exact h.below i hbelow hsize
    · rw [Function.update_of_ne hbelow]
      exact h.except i hone hsize hni hbelow

/-! ### On the way down -/

/-- The element belongs below what stands above the hole. -/
structure DownHole (key : α → κ) (slot : Nat → α) (size hole : Nat) (x : α) : Prop where
  except : OrderedExcept key slot size hole
  around : AroundHole key slot size hole
  above : 1 < hole → key (slot (hole / 2)) ≤ key x

/-- The first slot becomes the hole, whatever it is overwritten with. -/
theorem Ordered.downHole (h : Ordered key slot size) {size' : Nat} (hle : size' ≤ size) (x y : α) :
    DownHole key (Function.update slot 1 y) size' 1 x where
  except := by
    intro i hlt hsize hne hhalf
    rw [Function.update_of_ne hne, Function.update_of_ne hhalf]
    exact h i hlt (hsize.trans hle)
  around := fun hlt => absurd hlt (lt_irrefl 1)
  above := fun hlt => absurd hlt (lt_irrefl 1)

/-- The lesser child goes up into the hole. -/
theorem DownHole.move (h : DownHole key slot size hole x) {child : Nat} (hhole : 1 ≤ hole)
    (hchild : child / 2 = hole) (hle : child ≤ size) (hlt : key (slot child) ≤ key x)
    (hleast : ∀ i, i / 2 = hole → i ≤ size → key (slot child) ≤ key (slot i)) :
    DownHole key (Function.update slot hole (slot child)) size child x where
  except := by
    intro i hone hsize hne hhalf
    by_cases hni : i = hole
    · have hparent : i / 2 ≠ hole := by omega
      rw [Function.update_of_ne hparent, hni, Function.update_self]
      exact h.around (hni ▸ hone) child hchild hle
    · rw [Function.update_of_ne hni]
      by_cases hside : i / 2 = hole
      · rw [hside, Function.update_self]
        exact hleast i hside hsize
      · rw [Function.update_of_ne hside]
        exact h.except i hone hsize hni hside
  around := by
    intro _ i hhalf hsize
    have hni : i ≠ hole := by omega
    rw [hchild, Function.update_self, Function.update_of_ne hni]
    have hbelow := h.except i (by omega) hsize hni (by omega)
    rwa [hhalf] at hbelow
  above := by
    intro _
    rwa [hchild, Function.update_self]

/-- The element takes its place above children that are no less. -/
theorem DownHole.finish (h : DownHole key slot size hole x)
    (hstop : ∀ i, i / 2 = hole → i ≤ size → key x ≤ key (slot i)) :
    Ordered key (Function.update slot hole x) size := by
  intro i hone hsize
  by_cases hni : i = hole
  · have hparent : i / 2 ≠ hole := by omega
    rw [Function.update_of_ne hparent, hni, Function.update_self]
    exact h.above (hni ▸ hone)
  · rw [Function.update_of_ne hni]
    by_cases hbelow : i / 2 = hole
    · rw [hbelow, Function.update_self]
      exact hstop i hbelow hsize
    · rw [Function.update_of_ne hbelow]
      exact h.except i hone hsize hni hbelow

end BinaryHeap
