import Mathlib.Data.List.Flatten
import Mathlib.Data.List.Perm.Basic
import Mathlib.Tactic

/-!
Finite maps kept as entries without repetition, in no particular order. Keys
are compared by an equivalence that need not be equality. The entries may be
spread over buckets; then they are those of all the buckets together.
-/

namespace FiniteMap

variable {E K V : Type*}

section Entries

variable [BEq K]

def set (f : K → Option V) (k : K) (v : V) : K → Option V :=
  fun k' => if k == k' then some v else f k'

def unset (f : K → Option V) (k : K) : K → Option V :=
  fun k' => if k == k' then none else f k'

section Lookup

variable [LawfulBEq K]

@[simp] theorem set_self (f : K → Option V) (k : K) (v : V) : set f k v k = some v :=
  if_pos (beq_self_eq_true k)

theorem set_of_ne (f : K → Option V) {k k' : K} (h : k ≠ k') (v : V) : set f k v k' = f k' :=
  if_neg (mt eq_of_beq h)

/-- What holds of the new entry and of the other ones. -/
theorem forall_set {P : K → V → Prop} {f : K → Option V} {k : K} {v : V} (hself : P k v)
    (hothers : ∀ k' v', f k' = some v' → P k' v') {k' : K} {v' : V}
    (h : set f k v k' = some v') : P k' v' := by
  by_cases hne : k = k'
  · subst hne
    rw [set_self] at h
    rw [← Option.some.inj h]
    exact hself
  · rw [set_of_ne f hne] at h
    exact hothers k' v' h

@[simp] theorem unset_self (f : K → Option V) (k : K) : unset f k k = none :=
  if_pos (beq_self_eq_true k)

theorem unset_of_ne (f : K → Option V) {k k' : K} (h : k ≠ k') : unset f k k' = f k' :=
  if_neg (mt eq_of_beq h)

end Lookup

/-- Of two values set for a key the second one stays. -/
theorem set_set (f : K → Option V) (k : K) (v w : V) : set (set f k v) k w = set f k w := by
  funext k'
  by_cases hk : (k == k') = true <;> simp [set, hk]

/-- The entries hold the map: no two have the same key, and a key has a value
just when an entry gives it. -/
structure Describes (key : E → K) (value : E → V) (entries : List E) (f : K → Option V) :
    Prop where
  distinct : entries.Pairwise fun a b => (key a == key b) = false
  lookup : ∀ k v, f k = some v ↔ ∃ e ∈ entries, (key e == k) = true ∧ value e = v

variable {key : E → K} {value : E → V} {entries entries' : List E} {f : K → Option V}

theorem Describes.empty (key : E → K) (value : E → V) :
    Describes key value [] fun _ => none := by
  refine ⟨List.Pairwise.nil, ?_⟩
  intro k v
  simp

/-- A key is in the map just when an entry has it. -/
theorem Describes.isSome_iff (h : Describes key value entries f) (k : K) :
    f k ≠ none ↔ ∃ e ∈ entries, (key e == k) = true := by
  rw [Option.ne_none_iff_exists']
  constructor
  · rintro ⟨v, hv⟩
    obtain ⟨e, hmem, hkey, -⟩ := (h.lookup k v).mp hv
    exact ⟨e, hmem, hkey⟩
  · rintro ⟨e, hmem, hkey⟩
    exact ⟨value e, (h.lookup k (value e)).mpr ⟨e, hmem, hkey, rfl⟩⟩

theorem Describes.eq_some (h : Describes key value entries f) {e : E} (hmem : e ∈ entries) {k : K}
    (hkey : (key e == k) = true) : f k = some (value e) :=
  (h.lookup k (value e)).mpr ⟨e, hmem, hkey, rfl⟩

theorem Describes.eq_none (h : Describes key value entries f) {k : K}
    (hkey : ∀ e ∈ entries, (key e == k) = false) : f k = none := by
  refine not_not.mp (mt (h.isSome_iff k).mp ?_)
  rintro ⟨e, hmem, he⟩
  simp [hkey e hmem] at he

variable [EquivBEq K]

/-- Entries in another order. -/
theorem Describes.perm (h : Describes key value entries f) (hperm : entries.Perm entries') :
    Describes key value entries' f := by
  refine ⟨?_, ?_⟩
  · refine (hperm.pairwise_iff ?_).mp h.distinct
    intro a b hab
    rwa [BEq.comm]
  · intro k v
    simp only [h.lookup, hperm.mem_iff]

/-- A new entry, for a key without one. -/
theorem Describes.cons (h : Describes key value entries f) {e : E}
    (hnew : ∀ other ∈ entries, (key other == key e) = false) :
    Describes key value (e :: entries) (set f (key e) (value e)) := by
  refine ⟨List.pairwise_cons.mpr ⟨?_, h.distinct⟩, ?_⟩
  · intro other hmem
    rw [BEq.comm]
    exact hnew other hmem
  · intro k v
    simp only [set, List.mem_cons, exists_eq_or_imp]
    by_cases hsame : (key e == k) = true
    · have hothers : ∀ other ∈ entries, (key other == k) = false := by
        intro other hmem
        rw [← BEq.congr_right hsame]
        exact hnew other hmem
      rw [if_pos hsame, Option.some.injEq]
      constructor
      · rintro rfl
        exact Or.inl ⟨hsame, rfl⟩
      · rintro (⟨-, hv⟩ | ⟨other, hmem, hkey, -⟩)
        · exact hv
        · simp [hothers other hmem] at hkey
    · simp [hsame, h.lookup]

/-- An entry taken away. -/
theorem Describes.tail {e : E} (h : Describes key value (e :: entries) f) {k : K}
    (hkey : (key e == k) = true) : Describes key value entries (unset f k) := by
  obtain ⟨hfirst, hdistinct⟩ := List.pairwise_cons.mp h.distinct
  refine ⟨hdistinct, ?_⟩
  intro k' v
  by_cases hsame : (k == k') = true
  · simp only [unset, hsame, if_true, reduceCtorEq, false_iff]
    rintro ⟨other, hmem, hother, -⟩
    have hcommon : (key e == key other) = true :=
      BEq.trans (BEq.trans hkey hsame) (BEq.symm hother)
    simp [hfirst other hmem] at hcommon
  · have hne : (key e == k') = false := by
      rw [BEq.congr_left hkey]
      simpa using hsame
    simp [unset, hsame, h.lookup, hne]

/-- An entry with another value. -/
theorem Describes.replace {e e' : E} (h : Describes key value (e :: entries) f)
    (hkey : key e' = key e) {k : K} (hk : (key e == k) = true) :
    Describes key value (e' :: entries) (set f k (value e')) := by
  have hrest := h.tail hk
  have hnew : ∀ other ∈ entries, (key other == key e') = false := by
    intro other hmem
    rw [hkey, BEq.comm]
    exact (List.pairwise_cons.mp h.distinct).1 other hmem
  have hset : set (unset f k) (key e') (value e') = set f k (value e') := by
    funext k'
    simp only [set, unset, hkey, BEq.congr_left hk]
    split <;> rfl
  rw [← hset]
  exact hrest.cons hnew

end Entries

section Buckets

variable {buckets : List (List E)} {i : Nat} {bucket : List E}

/-- The entries with one bucket set apart. -/
theorem flatten_perm_of_getElem? (h : buckets[i]? = some bucket) :
    buckets.flatten.Perm (bucket ++ (buckets.eraseIdx i).flatten) := by
  induction buckets generalizing i with
  | nil => simp at h
  | cons first buckets ih =>
      cases i with
      | zero =>
          obtain rfl : first = bucket := by simpa using h
          exact List.Perm.refl _
      | succ i =>
          have hrest := ih (by simpa using h)
          rw [List.flatten_cons, List.eraseIdx_cons_succ, List.flatten_cons]
          exact (hrest.append_left first).trans (List.perm_append_comm_assoc first bucket _)

/-- The entries after one bucket was replaced. -/
theorem flatten_set_perm (h : buckets[i]? = some bucket) (bucket' : List E) :
    (buckets.set i bucket').flatten.Perm (bucket' ++ (buckets.eraseIdx i).flatten) := by
  have hlt : i < buckets.length := (List.getElem?_eq_some_iff.mp h).1
  have hset : (buckets.set i bucket')[i]? = some bucket' := by
    simp [hlt]
  have hperm := flatten_perm_of_getElem? hset
  rwa [List.eraseIdx_set_eq] at hperm

end Buckets

end FiniteMap
