import TinyMqtt.Base.Map
import TinyMqtt.Lib.FiniteMap
import TinyMqtt.Lib.Run

/-!
The hash map refines a finite map. The entries of all buckets together hold
the map, each in the bucket of its hash, and moving an entry within its chain
or into other buckets only changes their order. Iteration visits them bucket
by bucket.
-/

namespace TinyMqtt

open FiniteMap Run

variable {K V : Type}

/-! ### Capacities -/

theorem fillBits_double : ∀ n < 31, 3 ≤ n →
    (fillBits (UInt32.ofNat (2 ^ n) * 2 - 1) + 1).toNat = 2 ^ (n + 1) := by
  decide +kernel

theorem doubling_fits : ∀ n < 31, 3 ≤ n →
    ¬ UInt32.ofNat (2 ^ n) > uint32Max / 2 ∧ ¬ UInt32.ofNat (2 ^ n) < 8 := by
  decide +kernel

/-- The capacity doubles, unless it is the largest one or there is no memory. -/
theorem tmqMapAllocBuckets_double {cap : UInt32} {n : Nat} (hcap : cap.toNat = 2 ^ n)
    (hmin : 3 ≤ n) (hmax : n ≤ 31) (malloc : Bool) :
    (malloc = false ∨ n = 31) ∧ @tmqMapAllocBuckets K V cap 2 malloc = none ∨
      ∃ after, n < 31 ∧ after.toNat = 2 ^ (n + 1) ∧
        @tmqMapAllocBuckets K V cap 2 malloc = some (List.replicate after.toNat [], after) := by
  obtain rfl : cap = UInt32.ofNat (2 ^ n) := by
    rw [← hcap, UInt32.ofNat_toNat]
  rcases Nat.lt_or_eq_of_le hmax with hlt | rfl
  · obtain ⟨hfits, hlarge⟩ := doubling_fits n hlt hmin
    cases malloc with
    | false => exact Or.inl ⟨Or.inl rfl, by simp [tmqMapAllocBuckets]⟩
    | true =>
        refine Or.inr ⟨_, hlt, fillBits_double n hlt hmin, ?_⟩
        rw [tmqMapAllocBuckets, if_neg hfits, if_neg hlarge]
        rfl
  · refine Or.inl ⟨Or.inr rfl, if_pos ?_⟩
    decide

variable [MapKey K]

/-! ### Buckets -/

theorem tmqMapBucketIndex_lt {cap : UInt32} (hcap : 0 < cap.toNat) (hash : UInt32) :
    tmqMapBucketIndex cap hash < cap.toNat := by
  have hone : (1 : UInt32).toNat = 1 := rfl
  have hle : (1 : UInt32) ≤ cap := UInt32.le_iff_toNat_le.mpr (by omega)
  rw [tmqMapBucketIndex, UInt32.toNat_and, UInt32.toNat_sub_of_le _ _ hle, hone]
  have hand : hash.toNat &&& (cap.toNat - 1) ≤ cap.toNat - 1 := Nat.and_le_right
  omega

/-- Every entry has the hash of its key and is in the bucket of that hash. -/
def Placed (cap : UInt32) (buckets : List (List (MapEntry K V))) : Prop :=
  ∀ i chain, buckets[i]? = some chain → ∀ e ∈ chain,
    e.hash = MapKey.hashFn e.key ∧ tmqMapBucketIndex cap e.hash = i

theorem placed_replicate (cap : UInt32) (n : Nat) :
    Placed cap (List.replicate n ([] : List (MapEntry K V))) := by
  intro i chain hchain e hmem
  rw [List.getElem?_replicate] at hchain
  obtain ⟨-, hnil⟩ := Option.ite_none_right_eq_some.mp hchain
  obtain rfl := Option.some.inj hnil
  simp at hmem

theorem Placed.set {cap : UInt32} {buckets : List (List (MapEntry K V))} (h : Placed cap buckets)
    {i : Nat} {chain : List (MapEntry K V)}
    (hchain : ∀ e ∈ chain, e.hash = MapKey.hashFn e.key ∧ tmqMapBucketIndex cap e.hash = i) :
    Placed cap (buckets.set i chain) := by
  intro j other hother e hmem
  by_cases hsame : i = j
  · subst hsame
    by_cases hlt : i < buckets.length
    · obtain rfl : chain = other := by simpa [hlt] using hother
      exact hchain e hmem
    · simp [hlt] at hother
  · rw [List.getElem?_set_ne hsame] at hother
    exact h j other hother e hmem

/-- An entry that is put into a bucket joins the others. -/
theorem tmqMapInsertEntry_spec {cap : UInt32} (hcap : 0 < cap.toNat)
    {buckets : List (List (MapEntry K V))} (hlen : buckets.length = cap.toNat)
    (hplaced : Placed cap buckets) {entry : MapEntry K V}
    (hhash : entry.hash = MapKey.hashFn entry.key) :
    ∃ after, tmqMapInsertEntry cap entry buckets = some after ∧ after.length = cap.toNat ∧
      Placed cap after ∧ after.flatten.Perm (entry :: buckets.flatten) := by
  have hlt : tmqMapBucketIndex cap entry.hash < buckets.length := by
    rw [hlen]
    exact tmqMapBucketIndex_lt hcap entry.hash
  have hchain := List.getElem?_eq_getElem hlt
  refine ⟨buckets.set (tmqMapBucketIndex cap entry.hash)
    (entry :: buckets[tmqMapBucketIndex cap entry.hash]), ?_, ?_, ?_, ?_⟩
  · simp [tmqMapInsertEntry, hchain]
  · rw [List.length_set, hlen]
  · refine hplaced.set ?_
    intro e hmem
    rcases List.mem_cons.mp hmem with rfl | hmem
    · exact ⟨hhash, rfl⟩
    · exact hplaced _ _ hchain e hmem
  · exact (flatten_set_perm hchain _).trans ((flatten_perm_of_getElem? hchain).symm.cons entry)

theorem insertChain_spec {cap : UInt32} (hcap : 0 < cap.toNat) {chain : List (MapEntry K V)}
    (hhash : ∀ e ∈ chain, e.hash = MapKey.hashFn e.key) {buckets : List (List (MapEntry K V))}
    (hlen : buckets.length = cap.toNat) (hplaced : Placed cap buckets) :
    ∃ after, chain.foldlM (fun buckets entry => tmqMapInsertEntry cap entry buckets) buckets
        = some after ∧
      after.length = cap.toNat ∧ Placed cap after ∧
      after.flatten.Perm (chain ++ buckets.flatten) := by
  induction chain generalizing buckets with
  | nil => exact ⟨buckets, rfl, hlen, hplaced, List.Perm.refl _⟩
  | cons entry chain ih =>
      obtain ⟨hentry, hchain⟩ := List.forall_mem_cons.mp hhash
      obtain ⟨next, hnext, hlen', hplaced', hperm⟩ :=
        tmqMapInsertEntry_spec hcap hlen hplaced hentry
      obtain ⟨after, hafter, hlen'', hplaced'', hperm'⟩ := ih hchain hlen' hplaced'
      refine ⟨after, ?_, hlen'', hplaced'', ?_⟩
      · rw [List.foldlM_cons, hnext]
        exact hafter
      · exact hperm'.trans ((hperm.append_left chain).trans List.perm_middle)

/-- Moving all entries into other buckets keeps them all. -/
theorem remap_spec {cap : UInt32} (hcap : 0 < cap.toNat) {old : List (List (MapEntry K V))}
    (hhash : ∀ e ∈ old.flatten, e.hash = MapKey.hashFn e.key)
    {buckets : List (List (MapEntry K V))} (hlen : buckets.length = cap.toNat)
    (hplaced : Placed cap buckets) :
    ∃ after, remap cap old buckets = some after ∧ after.length = cap.toNat ∧ Placed cap after ∧
      after.flatten.Perm (old.flatten ++ buckets.flatten) := by
  induction old generalizing buckets with
  | nil => exact ⟨buckets, rfl, hlen, hplaced, List.Perm.refl _⟩
  | cons chain old ih =>
      rw [List.flatten_cons] at hhash
      obtain ⟨next, hnext, hlen', hplaced', hperm⟩ := insertChain_spec hcap
        (fun e he => hhash e (List.mem_append_left _ he)) hlen hplaced
      obtain ⟨after, hafter, hlen'', hplaced'', hperm'⟩ :=
        ih (fun e he => hhash e (List.mem_append_right _ he)) hlen' hplaced'
      refine ⟨after, ?_, hlen'', hplaced'', ?_⟩
      · rw [remap, List.foldlM_cons, hnext]
        exact hafter
      · rw [List.flatten_cons, List.append_assoc]
        exact hperm'.trans ((hperm.append_left _).trans (List.perm_append_comm_assoc _ _ _))

/-! ### The map -/

/-- The map `m` is the finite map `f`. -/
structure MapBase.Represents (m : MapBase K V) (f : K → Option V) : Prop where
  cap : ∃ n, 3 ≤ n ∧ n ≤ 31 ∧ m.cap.toNat = 2 ^ n
  buckets : m.buckets.length = m.cap.toNat
  placed : Placed m.cap m.buckets
  describes : Describes MapEntry.key MapEntry.value m.entries f
  size : m.size = UInt32.ofNat m.entries.length

namespace MapBase.Represents

variable {m : MapBase K V} {f : K → Option V}

theorem cap_pos (h : m.Represents f) : 0 < m.cap.toNat := by
  obtain ⟨n, -, -, hcap⟩ := h.cap
  rw [hcap]
  exact Nat.two_pow_pos n

theorem hash_eq (h : m.Represents f) {e : MapEntry K V} (hmem : e ∈ m.entries) :
    e.hash = MapKey.hashFn e.key := by
  obtain ⟨chain, hchain, he⟩ := List.mem_flatten.mp hmem
  obtain ⟨i, hi⟩ := List.mem_iff_getElem?.mp hchain
  exact (h.placed i chain hi e he).1

/-- The search finds the entry of a key, or there is none in any bucket: a key
that is equal has the same hash. -/
theorem find (h : m.Represents f) (key : K) :
    ∃ chain, m.buckets[tmqMapBucketIndex m.cap (MapKey.hashFn key)]? = some chain ∧
      ((∃ place e, tmqMapFindEntry m key
            = some (some (tmqMapBucketIndex m.cap (MapKey.hashFn key), place)) ∧
          chain[place]? = some e ∧ (e.key == key) = true) ∨
        (tmqMapFindEntry m key = some none ∧ ∀ e ∈ m.entries, (e.key == key) = false)) := by
  have hlt : tmqMapBucketIndex m.cap (MapKey.hashFn key) < m.buckets.length := by
    rw [h.buckets]
    exact tmqMapBucketIndex_lt h.cap_pos _
  have hchain := List.getElem?_eq_getElem hlt
  refine ⟨_, hchain, ?_⟩
  cases hfind : (m.buckets[tmqMapBucketIndex m.cap (MapKey.hashFn key)]).findIdx?
      fun entry => MapKey.hashFn key == entry.hash && entry.key == key with
  | some place =>
      obtain ⟨hplace, hmatch, -⟩ := List.findIdx?_eq_some_iff_getElem.mp hfind
      rw [Bool.and_eq_true] at hmatch
      refine Or.inl ⟨place, _, ?_, List.getElem?_eq_getElem hplace, hmatch.2⟩
      simp [tmqMapFindEntry, hchain, hfind]
  | none =>
      refine Or.inr ⟨by simp [tmqMapFindEntry, hchain, hfind], ?_⟩
      intro e hmem
      obtain ⟨chain, hother, he⟩ := List.mem_flatten.mp hmem
      obtain ⟨i, hi⟩ := List.mem_iff_getElem?.mp hother
      obtain ⟨hhash, hindex⟩ := h.placed i chain hi e he
      by_contra hkey
      have hequal : (e.key == key) = true := by simpa using hkey
      have hsame : e.hash = MapKey.hashFn key := hhash.trans (MapKey.hashFn_eq _ _ hequal)
      subst hindex
      rw [hsame, hchain] at hi
      obtain rfl := Option.some.inj hi
      have hmiss := List.findIdx?_eq_none_iff.mp hfind e he
      simp [hsame, hequal] at hmiss

theorem get (h : m.Represents f) (key : K) : tmqMapGet m key = some (f key) := by
  obtain ⟨chain, hchain, ⟨place, e, hfind, he, hkey⟩ | ⟨hfind, hnone⟩⟩ := h.find key
  · have hmem : e ∈ m.entries :=
      List.mem_flatten.mpr ⟨chain, List.mem_of_getElem? hchain, List.mem_of_getElem? he⟩
    rw [h.describes.eq_some hmem hkey]
    simp [tmqMapGet, hfind, hchain, he]
  · rw [h.describes.eq_none hnone]
    simp [tmqMapGet, hfind]

omit [MapKey K] in
/-- The entries with the one that was found set apart. -/
theorem entries_perm {i place : Nat} {chain : List (MapEntry K V)} {e : MapEntry K V}
    (hchain : m.buckets[i]? = some chain) (he : chain[place]? = some e) :
    m.entries.Perm (e :: (chain.eraseIdx place ++ (m.buckets.eraseIdx i).flatten)) := by
  obtain ⟨hlt, rfl⟩ := List.getElem?_eq_some_iff.mp he
  exact (flatten_perm_of_getElem? hchain).trans
    ((List.getElem_cons_eraseIdx_perm hlt).symm.append_right _)

/-- `tmq_map_put_` of a key that has an entry. -/
theorem put_found (h : m.Represents f) {i place : Nat} {chain : List (MapEntry K V)}
    {e : MapEntry K V} (hchain : m.buckets[i]? = some chain) (he : chain[place]? = some e)
    {key : K} (hkey : (e.key == key) = true) (value : V) :
    MapBase.Represents
      { m with buckets := m.buckets.set i (chain.set place { e with value := value }) }
      (set f key value) := by
  obtain ⟨hlt, he'⟩ := List.getElem?_eq_some_iff.mp he
  have hbefore := entries_perm hchain he
  have hafter : (m.buckets.set i (chain.set place { e with value := value })).flatten.Perm
      ({ e with value := value } :: (chain.eraseIdx place ++ (m.buckets.eraseIdx i).flatten)) :=
    (flatten_set_perm hchain _).trans ((List.set_perm_cons_eraseIdx hlt _).append_right _)
  have hset := (h.describes.perm hbefore).replace
    (show ({ e with value := value } : MapEntry K V).key = e.key from rfl) hkey
  have hplaced := h.placed i chain hchain
  refine ⟨h.cap, (List.length_set ..).trans h.buckets, h.placed.set ?_, ?_, ?_⟩
  · intro other hmem
    rcases List.mem_or_eq_of_mem_set hmem with hmem | rfl
    · exact hplaced other hmem
    · exact hplaced e (List.mem_of_getElem? he)
  · exact hset.perm hafter.symm
  · refine h.size.trans (congrArg UInt32.ofNat ?_)
    rw [hbefore.length_eq]
    exact hafter.length_eq.symm

/-- `tmq_map_erase_`. -/
theorem erase (h : m.Represents f) (key : K) :
    ∃ after, tmqMapErase m key = some after ∧ after.Represents (unset f key) := by
  obtain ⟨chain, hchain, ⟨place, e, hfind, he, hkey⟩ | ⟨hfind, hnone⟩⟩ := h.find key
  · have hbefore := entries_perm hchain he
    have hafter := flatten_set_perm hchain (chain.eraseIdx place)
    refine ⟨{ m with
        buckets := m.buckets.set (tmqMapBucketIndex m.cap (MapKey.hashFn key))
          (chain.eraseIdx place)
        size := m.size - 1 }, by simp [tmqMapErase, hfind, hchain], h.cap,
      (List.length_set ..).trans h.buckets, h.placed.set ?_, ?_, ?_⟩
    · intro other hmem
      exact h.placed _ chain hchain other (List.mem_of_mem_eraseIdx hmem)
    · exact ((h.describes.perm hbefore).tail hkey).perm hafter.symm
    · change m.size - 1 = UInt32.ofNat (m.buckets.set _ (chain.eraseIdx place)).flatten.length
      rw [h.size, hbefore.length_eq, List.length_cons, hafter.length_eq, UInt32.ofNat_add]
      exact UInt32.add_sub_cancel _ _
  · refine ⟨m, by simp [tmqMapErase, hfind], ?_⟩
    have hsame : unset f key = f := by
      funext k
      by_cases hk : (key == k) = true
      · have hk' : ∀ e ∈ m.entries, (e.key == k) = false := by
          intro e hmem
          rw [← BEq.congr_right hk]
          exact hnone e hmem
        simp [unset, hk, h.describes.eq_none hk']
      · simp [unset, hk]
    rwa [hsame]

/-- `tmq_map_grow` keeps the map, whether it grows or not. -/
theorem grow (h : m.Represents f) (malloc : Bool) :
    ∃ after, tmqMapGrow m malloc = some after ∧ after.Represents f ∧
      after.entries.Perm m.entries := by
  by_cases hfew : m.size < m.remapThresh
  · exact ⟨m, if_pos hfew, h, List.Perm.refl _⟩
  obtain ⟨n, hmin, hmax, hcap⟩ := h.cap
  rw [tmqMapGrow, if_neg hfew]
  rcases @tmqMapAllocBuckets_double K V m.cap n hcap hmin hmax malloc with
    ⟨-, halloc⟩ | ⟨cap, hlt, hcap', halloc⟩
  · exact ⟨m, by rw [halloc], h, List.Perm.refl _⟩
  have hpos : 0 < cap.toNat := by
    rw [hcap']
    exact Nat.two_pow_pos _
  obtain ⟨buckets, hremap, hlen, hplaced, hperm⟩ := remap_spec hpos (fun e => h.hash_eq)
    (List.length_replicate ..) (placed_replicate cap cap.toNat)
  have hperm' : buckets.flatten.Perm m.entries := by
    simpa [MapBase.entries] using hperm
  refine ⟨{ m with buckets := buckets, cap := cap, remapThresh := cap * m.loadFac / 100 }, ?_,
    ⟨⟨n + 1, by omega, hlt, hcap'⟩, hlen, hplaced, h.describes.perm hperm'.symm, ?_⟩, hperm'⟩
  · rw [halloc]
    simp [hremap]
  · exact h.size.trans (congrArg UInt32.ofNat hperm'.length_eq.symm)

/-- The end of `tmq_map_put_` for a key without an entry. -/
theorem put_new (h : m.Represents f) {key : K} (hnone : ∀ e ∈ m.entries, (e.key == key) = false)
    (value : V) :
    ∃ buckets, tmqMapInsertEntry m.cap ⟨MapKey.hashFn key, key, value⟩ m.buckets = some buckets ∧
      MapBase.Represents { m with buckets := buckets, size := m.size + 1 } (set f key value) ∧
      buckets.flatten.length = m.entries.length + 1 := by
  obtain ⟨buckets, hinsert, hlen, hplaced, hperm⟩ :=
    @tmqMapInsertEntry_spec K V _ m.cap h.cap_pos m.buckets h.buckets h.placed
      ⟨MapKey.hashFn key, key, value⟩ rfl
  refine ⟨buckets, hinsert, ⟨h.cap, hlen, hplaced, ?_, ?_⟩, hperm.length_eq⟩
  · exact (@Describes.cons _ K V _ MapEntry.key MapEntry.value m.entries f _ h.describes
      ⟨MapKey.hashFn key, key, value⟩ hnone).perm hperm.symm
  · change m.size + 1 = UInt32.ofNat buckets.flatten.length
    rw [hperm.length_eq, List.length_cons, UInt32.ofNat_add, h.size]
    rfl

/-- `tmq_map_clear_`, as far as its loop counts. -/
theorem clear (h : m.Represents f) (hcap : m.cap.toNat < 2 ^ 31) :
    ∃ after, tmqMapClear m = some after ∧ after.Represents fun _ => none := by
  have hle : ¬ (2147483647 : UInt32) < m.cap := by
    rw [UInt32.lt_iff_toNat_lt]
    exact Nat.not_lt.mpr (Nat.le_of_lt_succ hcap)
  have hflat : (m.buckets.map fun _ => ([] : List (MapEntry K V))).flatten = [] := by
    simp
  refine ⟨_, if_neg hle, h.cap, (List.length_map ..).trans h.buckets, ?_, ?_, ?_⟩
  · intro i chain hchain e hmem
    rw [List.getElem?_map, Option.map_eq_some_iff] at hchain
    obtain ⟨-, -, rfl⟩ := hchain
    simp at hmem
  · change Describes MapEntry.key MapEntry.value
      (m.buckets.map fun _ => ([] : List (MapEntry K V))).flatten _
    rw [hflat]
    exact Describes.empty _ _
  · change 0 = UInt32.ofNat (m.buckets.map fun _ => ([] : List (MapEntry K V))).flatten.length
    rw [hflat]
    rfl

/-- `tmq_map_put_` of a key without an entry, when there is memory for one. -/
theorem put_absent (h : m.Represents f) {key : K} (hkey : f key = none) (value : V)
    (mallocBuckets : Bool) :
    ∃ grown buckets, tmqMapGrow m mallocBuckets = some grown ∧
      tmqMapPut m key value true mallocBuckets
        = some (0, { grown with buckets := buckets, size := grown.size + 1 }) ∧
      MapBase.Represents { grown with buckets := buckets, size := grown.size + 1 }
        (set f key value) ∧
      buckets.flatten.length = m.entries.length + 1 := by
  have hnone : ∀ e ∈ m.entries, (e.key == key) = false := by
    intro e hmem
    by_contra hequal
    exact (h.describes.isSome_iff key).mpr ⟨e, hmem, by simpa using hequal⟩ hkey
  obtain ⟨chain, hchain, ⟨place, e, hfind, he, hequal⟩ | ⟨hfind, -⟩⟩ := h.find key
  · have hmem : e ∈ m.entries :=
      List.mem_flatten.mpr ⟨chain, List.mem_of_getElem? hchain, List.mem_of_getElem? he⟩
    simp [hnone e hmem] at hequal
  obtain ⟨grown, hgrow, hgrown, hperm⟩ := h.grow mallocBuckets
  obtain ⟨buckets, hinsert, hafter, hlen⟩ :=
    hgrown.put_new (fun e hmem => hnone e (hperm.mem_iff.mp hmem)) value
  refine ⟨grown, buckets, hgrow, ?_, hafter, hperm.length_eq ▸ hlen⟩
  by_cases hfull : m.remapThresh ≤ m.size
  · simp [tmqMapPut, hfind, hfull, hgrow, hinsert]
  · rw [tmqMapGrow, if_pos (UInt32.not_le.mp hfull)] at hgrow
    obtain rfl := Option.some.inj hgrow
    simp [tmqMapPut, hfind, hfull, hinsert]

/-- `tmq_map_put_` of any key. A new entry needs memory, and without it the map
stays as it is. -/
theorem put (h : m.Represents f) (key : K) (value : V) (mallocEntry mallocBuckets : Bool) :
    ∃ after, tmqMapPut m key value mallocEntry mallocBuckets
        = some (if mallocEntry || (f key).isSome then 0 else -1, after) ∧
      after.Represents (if mallocEntry || (f key).isSome then set f key value else f) := by
  obtain ⟨chain, hchain, ⟨place, e, hfind, he, hkey⟩ | ⟨hfind, hnone⟩⟩ := h.find key
  · have hmem : e ∈ m.entries :=
      List.mem_flatten.mpr ⟨chain, List.mem_of_getElem? hchain, List.mem_of_getElem? he⟩
    have hsome : f key = some e.value := h.describes.eq_some hmem hkey
    simp only [hsome, Option.isSome_some, Bool.or_true, if_true]
    exact ⟨_, by simp [tmqMapPut, hfind, hchain, he], h.put_found hchain he hkey value⟩
  · have hkey : f key = none := h.describes.eq_none hnone
    simp only [hkey, Option.isSome_none, Bool.or_false]
    cases mallocEntry with
    | false => exact ⟨m, by simp [tmqMapPut, hfind], h⟩
    | true =>
        obtain ⟨grown, buckets, -, hput, hafter, -⟩ := h.put_absent hkey value mallocBuckets
        exact ⟨_, hput, hafter⟩

end MapBase.Represents

/-! ### Iteration -/

section Iteration

omit [MapKey K]

variable {m : MapBase K V}

/-- The next bucket that is not empty, or there is none up to the end. -/
theorem tmqNextBucket_spec (hlen : m.buckets.length = m.cap.toNat) (cur : UInt32)
    (hcur : cur.toNat ≤ m.cap.toNat) :
    (tmqNextBucket m cur = uint32Max ∧ (m.buckets.drop cur.toNat).flatten = []) ∨
      (tmqNextBucket m cur < m.cap ∧
        ∃ entry chain, m.buckets[(tmqNextBucket m cur).toNat]? = some (entry :: chain) ∧
          (m.buckets.drop cur.toNat).flatten
            = entry :: chain ++ (m.buckets.drop ((tmqNextBucket m cur).toNat + 1)).flatten) := by
  have hone : (1 : UInt32).toNat = 1 := rfl
  have hcap := m.cap.toNat_lt
  induction cur using tmqNextBucket.induct m with
  | case1 cur hlt hempty ih =>
      have hlt' : cur.toNat < m.buckets.length := by
        rw [hlen]
        exact UInt32.lt_iff_toNat_lt.mp hlt
      have hnext : (cur + 1).toNat = cur.toNat + 1 := by
        rw [UInt32.toNat_add, hone, Nat.mod_eq_of_lt (by omega)]
      have hnil : m.buckets[cur.toNat] = [] := by
        simpa [List.getElem?_eq_getElem hlt'] using hempty
      have hdrop : (m.buckets.drop cur.toNat).flatten = (m.buckets.drop (cur + 1).toNat).flatten := by
        rw [List.drop_eq_getElem_cons hlt', hnil, hnext]
        rfl
      rw [tmqNextBucket, dif_pos hlt, if_pos hempty, hdrop]
      exact ih (by omega)
  | case2 cur hlt hnonempty =>
      have hlt' : cur.toNat < m.buckets.length := by
        rw [hlen]
        exact UInt32.lt_iff_toNat_lt.mp hlt
      rw [tmqNextBucket, dif_pos hlt, if_neg hnonempty]
      rw [List.getElem?_eq_getElem hlt', Option.getD_some] at hnonempty
      obtain ⟨entry, chain, hchain⟩ : ∃ entry chain, m.buckets[cur.toNat] = entry :: chain := by
        cases hbucket : m.buckets[cur.toNat] with
        | nil => simp [hbucket] at hnonempty
        | cons entry chain => exact ⟨entry, chain, rfl⟩
      refine Or.inr ⟨hlt, entry, chain, ?_, ?_⟩
      · rw [List.getElem?_eq_getElem hlt', hchain]
      · rw [List.drop_eq_getElem_cons hlt', List.flatten_cons, hchain]
  | case3 cur hge =>
      refine Or.inl ⟨by rw [tmqNextBucket, dif_neg hge], ?_⟩
      have hle : m.cap.toNat ≤ cur.toNat := by
        rw [UInt32.lt_iff_toNat_lt] at hge
        omega
      rw [List.drop_of_length_le (by omega)]
      rfl

def StandsAt (m : MapBase K V) (iter : MapIter K V) (left : List (MapEntry K V)) : Prop :=
  (iter.bucketIdx = uint32Max ∧ left = []) ∨
    (iter.bucketIdx < m.cap ∧ iter.entry ≠ [] ∧
      left = iter.entry ++ (m.buckets.drop (iter.bucketIdx.toNat + 1)).flatten)

theorem iterAt_standsAt (hlen : m.buckets.length = m.cap.toNat) {cur : UInt32}
    (hcur : cur.toNat ≤ m.cap.toNat) :
    StandsAt m (iterAt m cur) (m.buckets.drop cur.toNat).flatten := by
  have hcap := m.cap.toNat_lt
  rcases tmqNextBucket_spec hlen cur hcur with ⟨hmax, hnil⟩ | ⟨hlt, entry, chain, hchain, hleft⟩
  · exact Or.inl ⟨hmax, hnil⟩
  · have hne : tmqNextBucket m cur ≠ uint32Max := by
      intro hmax
      rw [hmax, UInt32.lt_iff_toNat_lt] at hlt
      have htop : uint32Max.toNat = 4294967295 := rfl
      omega
    refine Or.inr ⟨hlt, ?_, ?_⟩
    · simp [iterAt, hne, hchain]
    · simp only [iterAt, hne, if_false, hchain, Option.getD_some]
      exact hleft

theorem tmqMapIterNext_standsAt (hlen : m.buckets.length = m.cap.toNat) {iter : MapIter K V}
    {entry : MapEntry K V} {left : List (MapEntry K V)} (h : StandsAt m iter (entry :: left)) :
    iter.bucketIdx ≠ uint32Max ∧ iter.entry.head? = some entry ∧
      StandsAt m (tmqMapIterNext m iter) left := by
  have hcap := m.cap.toNat_lt
  have hone : (1 : UInt32).toNat = 1 := rfl
  have htop : uint32Max.toNat = 4294967295 := rfl
  rcases h with ⟨-, hnil⟩ | ⟨hlt, hentry, hleft⟩
  · simp at hnil
  have hlt' := UInt32.lt_iff_toNat_lt.mp hlt
  have hne : iter.bucketIdx ≠ uint32Max := by
    intro hmax
    rw [hmax] at hlt'
    omega
  cases hchain : iter.entry with
  | nil => exact absurd hchain hentry
  | cons first chain =>
      rw [hchain, List.cons_append, List.cons.injEq] at hleft
      obtain ⟨rfl, rfl⟩ := hleft
      refine ⟨hne, rfl, ?_⟩
      rw [tmqMapIterNext, if_neg hne, hchain, List.tail_cons]
      by_cases hmore : chain = []
      · have hnext : (iter.bucketIdx + 1).toNat = iter.bucketIdx.toNat + 1 := by
          rw [UInt32.toNat_add, hone, Nat.mod_eq_of_lt (by omega)]
        rw [if_neg (not_not.mpr hmore), hmore, List.nil_append, ← hnext]
        exact iterAt_standsAt hlen (by omega)
      · rw [if_pos hmore]
        exact Or.inr ⟨hlt, hmore, rfl⟩

/-- A loop over an iterator visits what the iterator stands before, once and
in order, and ends. -/
theorem mapLoop_visits (hlen : m.buckets.length = m.cap.toNat) {iter : MapIter K V}
    {left : List (MapEntry K V)} (h : StandsAt m iter left) {rounds : Nat}
    (hrounds : left.length < rounds) : mapLoop m rounds iter = some left := by
  have hcap := m.cap.toNat_lt
  induction left generalizing iter rounds with
  | nil =>
      obtain ⟨rounds, rfl⟩ : ∃ n, rounds = n + 1 := ⟨rounds - 1, by simp at hrounds; omega⟩
      rcases h with ⟨hmax, -⟩ | ⟨-, hentry, hleft⟩
      · simp [mapLoop, hmax]
      · exact absurd (List.append_eq_nil_iff.mp hleft.symm).1 hentry
  | cons entry left ih =>
      rw [List.length_cons] at hrounds
      obtain ⟨rounds, rfl⟩ : ∃ n, rounds = n + 1 := ⟨rounds - 1, by omega⟩
      obtain ⟨hne, hhead, hnext⟩ := tmqMapIterNext_standsAt hlen h
      have hrest := ih hnext (Nat.lt_of_succ_lt_succ hrounds)
      cases hchain : iter.entry with
      | nil => simp [hchain] at hhead
      | cons first chain =>
          obtain rfl : first = entry := by simpa [hchain] using hhead
          simp [mapLoop, hne, hchain, hrest]

/-- Iterating over a map visits each of its entries once, and ends. -/
theorem mapLoop_tmqMapIter (hlen : m.buckets.length = m.cap.toNat) {rounds : Nat}
    (hrounds : m.entries.length < rounds) : mapLoop m rounds (tmqMapIter m) = some m.entries := by
  have hstart : StandsAt m (tmqMapIter m) (m.buckets.drop (0 : UInt32).toNat).flatten :=
    iterAt_standsAt hlen (Nat.zero_le _)
  exact mapLoop_visits hlen hstart hrounds

end Iteration

end TinyMqtt
