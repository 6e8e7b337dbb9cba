import TinyMqtt.Base.MapRefinement

/-!
Sequences of calls on a hash map. Its 32-bit `size` counts the entries modulo
2^32, and `tmq_map_clear_` cannot count the buckets of the largest capacity;
a sequence of 2^32 insertions shows both.
-/

namespace TinyMqtt

open FiniteMap Run

variable {K V : Type}

/-- A call. A put is told whether there is memory for a new entry and for more
buckets. -/
inductive MapOp (K V : Type) where
  | put (key : K) (value : V) (mallocEntry mallocBuckets : Bool)
  | get (key : K)
  | erase (key : K)
  | clear

/-- What `tmq_map_put` and `tmq_map_get` return. -/
inductive MapResult (V : Type) where
  | status (code : Int)
  | value (value : Option V)

/-- A map is not cleared when its buckets are more than an `int` counts. -/
def MapOp.Allowed (run : MapBase K V × List (MapResult V)) : MapOp K V → Prop
  | .clear => run.1.cap.toNat < 2 ^ 31
  | _ => True

instance MapOp.decidableAllowed (run : MapBase K V × List (MapResult V)) (op : MapOp K V) :
    Decidable (op.Allowed run) :=
  match op with
  | .clear => inferInstanceAs (Decidable (run.1.cap.toNat < 2 ^ 31))
  | .put .. | .get _ | .erase _ => inferInstanceAs (Decidable True)

variable [MapKey K]

def mapStep (run : MapBase K V × List (MapResult V)) :
    MapOp K V → Option (MapBase K V × List (MapResult V))
  | .put key value mallocEntry mallocBuckets =>
      (tmqMapPut run.1 key value mallocEntry mallocBuckets).map fun (code, m) =>
        (m, run.2 ++ [.status code])
  | .get key => (tmqMapGet run.1 key).map fun value => (run.1, run.2 ++ [.value value])
  | .erase key => (tmqMapErase run.1 key).map (·, run.2)
  | .clear => (tmqMapClear run.1).map (·, run.2)

/-- The same call on a finite map. A put that would need an entry for which
there is no memory is refused. -/
def finiteMapStep (run : (K → Option V) × List (MapResult V)) :
    MapOp K V → (K → Option V) × List (MapResult V)
  | .put key value mallocEntry _ =>
      if mallocEntry || (run.1 key).isSome then (set run.1 key value, run.2 ++ [.status 0])
      else (run.1, run.2 ++ [.status (-1)])
  | .get key => (run.1, run.2 ++ [.value (run.1 key)])
  | .erase key => (unset run.1 key, run.2)
  | .clear => (fun _ => none, run.2)

def MapRefines (run : MapBase K V × List (MapResult V))
    (abstract : (K → Option V) × List (MapResult V)) : Prop :=
  run.1.Represents abstract.1 ∧ run.2 = abstract.2

theorem mapStep_refines {run : MapBase K V × List (MapResult V)}
    {abstract : (K → Option V) × List (MapResult V)} {op : MapOp K V}
    (hrel : MapRefines run abstract) (hallowed : op.Allowed run) :
    ∃ next, mapStep run op = some next ∧ MapRefines next (finiteMapStep abstract op) := by
  obtain ⟨m, results⟩ := run
  obtain ⟨f, results'⟩ := abstract
  obtain ⟨h, hsame⟩ := hrel
  obtain rfl : results = results' := hsame
  cases op with
  | put key value mallocEntry mallocBuckets =>
      obtain ⟨after, hput, hafter⟩ := h.put key value mallocEntry mallocBuckets
      by_cases hdone : (mallocEntry || (f key).isSome) = true
      · rw [if_pos hdone] at hput hafter
        refine ⟨(after, results ++ [.status 0]), by simp [mapStep, hput], ?_⟩
        rw [finiteMapStep, if_pos hdone]
        exact ⟨hafter, rfl⟩
      · rw [if_neg hdone] at hput hafter
        refine ⟨(after, results ++ [.status (-1)]), by simp [mapStep, hput], ?_⟩
        rw [finiteMapStep, if_neg hdone]
        exact ⟨hafter, rfl⟩
  | get key => exact ⟨(m, results ++ [.value (f key)]), by simp [mapStep, h.get], h, rfl⟩
  | erase key =>
      obtain ⟨after, herase, hafter⟩ := h.erase key
      exact ⟨(after, results), by simp [mapStep, herase], hafter, rfl⟩
  | clear =>
      obtain ⟨after, hclear, hafter⟩ := h.clear hallowed
      exact ⟨(after, results), by simp [mapStep, hclear], hafter, rfl⟩

omit [MapKey K] in
/-- The default map: eight empty buckets. -/
theorem tmqMapNew_default :
    (tmqMapNew mapDefaultCap mapDefaultLoadFactor true : Option (MapBase K V))
      = some ⟨List.replicate 8 [], 8, 0, 75, 6⟩ := rfl

theorem tmqMapNew_represents {start : MapBase K V}
    (hnew : tmqMapNew mapDefaultCap mapDefaultLoadFactor true = some start) :
    start.Represents fun _ => none := by
  rw [tmqMapNew_default] at hnew
  obtain rfl := Option.some.inj hnew
  exact ⟨⟨3, le_rfl, by decide, rfl⟩, rfl, placed_replicate _ _, Describes.empty _ _, rfl⟩

/-! ### The limits of 32 bits -/

/-- A percentage computed in 32 bits. -/
theorem remapThresh_le (v : UInt32) : (v / 100).toNat ≤ 42949672 := by
  have hv := v.toNat_lt
  have hhundred : (100 : UInt32).toNat = 100 := rfl
  rw [UInt32.toNat_div, hhundred]
  omega

/-- With memory for more buckets, a map over its threshold grows until its
capacity is the largest one. -/
theorem tmqMapGrow_cap {m after : MapBase K V} {f : K → Option V} (h : m.Represents f)
    (hthresh : m.remapThresh.toNat ≤ 42949672) (hgrow : tmqMapGrow m true = some after) {n : Nat}
    (hcap : m.cap.toNat = 2 ^ n) :
    after.remapThresh.toNat ≤ 42949672 ∧
      ∃ n', after.cap.toNat = 2 ^ n' ∧ n ≤ n' ∧ (42949672 ≤ m.size.toNat → min 31 (n + 1) ≤ n') := by
  obtain ⟨n', hmin, hmax, hcap'⟩ := h.cap
  obtain rfl : n = n' := Nat.pow_right_injective le_rfl (hcap.symm.trans hcap')
  by_cases hfew : m.size < m.remapThresh
  · rw [tmqMapGrow, if_pos hfew] at hgrow
    obtain rfl := Option.some.inj hgrow
    refine ⟨hthresh, n, hcap, le_rfl, ?_⟩
    intro hmany
    have hlt := UInt32.lt_iff_toNat_lt.mp hfew
    omega
  rw [tmqMapGrow, if_neg hfew] at hgrow
  rcases @tmqMapAllocBuckets_double K V m.cap n hcap hmin hmax true with
    ⟨hlast, halloc⟩ | ⟨cap, -, hdouble, halloc⟩
  · rw [halloc] at hgrow
    obtain rfl := Option.some.inj hgrow
    refine ⟨hthresh, n, hcap, le_rfl, ?_⟩
    intro _
    have hn : n = 31 := hlast.resolve_left (by simp)
    omega
  · rw [halloc] at hgrow
    obtain ⟨buckets, -, hafter⟩ := Option.bind_eq_some_iff.mp hgrow
    obtain rfl := Option.some.inj hafter
    exact ⟨remapThresh_le _, n + 1, hdouble, Nat.le_succ n, fun _ => Nat.min_le_right ..⟩

/-- `tmq_map_put_` of a key without an entry, when there is memory. -/
theorem tmqMapPut_absent {m : MapBase K V} {f : K → Option V} (h : m.Represents f)
    (hthresh : m.remapThresh.toNat ≤ 42949672) {key : K} (hkey : f key = none) (value : V) {n : Nat}
    (hcap : m.cap.toNat = 2 ^ n) :
    ∃ after, tmqMapPut m key value true true = some (0, after) ∧
      after.Represents (set f key value) ∧ after.entries.length = m.entries.length + 1 ∧
      after.remapThresh.toNat ≤ 42949672 ∧
      ∃ n', after.cap.toNat = 2 ^ n' ∧ n ≤ n' ∧ (42949672 ≤ m.size.toNat → min 31 (n + 1) ≤ n') := by
  obtain ⟨grown, buckets, hgrow, hput, hafter, hlen⟩ := h.put_absent hkey value true
  obtain ⟨hthresh', n', hcap', hle, hdouble⟩ := tmqMapGrow_cap h hthresh hgrow hcap
  exact ⟨_, hput, hafter, hlen, hthresh', n', hcap', hle, hdouble⟩

/-- Putting the keys below `n` one after the other. -/
theorem putKeys {n : Nat} (hn : n ≤ 2 ^ 32) :
    ∃ (ops : List (MapOp UInt32 Unit)) (final : MapBase UInt32 Unit × List (MapResult Unit))
        (f : UInt32 → Option Unit) (log : Nat),
      Admissible MapOp.Allowed mapStep (⟨List.replicate 8 [], 8, 0, 75, 6⟩, []) ops ∧
      runs mapStep (⟨List.replicate 8 [], 8, 0, 75, 6⟩, []) ops = some final ∧
      final.1.Represents f ∧ (∀ key, f key = if key.toNat < n then some () else none) ∧
      final.1.entries.length = n ∧ final.1.remapThresh.toNat ≤ 42949672 ∧
      final.1.cap.toNat = 2 ^ log ∧ ∀ k ≤ 28, 42949672 + k ≤ n ∨ k = 0 → 3 + k ≤ log := by
  induction n with
  | zero =>
      refine ⟨[], _, fun _ => none, 3, trivial, rfl, tmqMapNew_represents tmqMapNew_default, ?_, rfl,
        by decide, rfl, ?_⟩
      · intro key
        simp
      · intro k _ hk
        omega
  | succ n ih =>
      obtain ⟨ops, final, f, log, hops, hrun, h, hkeys, hlen, hthresh, hcap, hlog⟩ := ih (by omega)
      have hlt : (UInt32.ofNat n).toNat = n := UInt32.toNat_ofNat_of_lt' (show n < 4294967296 by omega)
      have habsent : f (UInt32.ofNat n) = none := by
        rw [hkeys, hlt, if_neg (Nat.lt_irrefl n)]
      have hsize : final.1.size.toNat = n := by
        rw [h.size, hlen, hlt]
      obtain ⟨after, hput, hafter, hlen', hthresh', log', hcap', hle, hdouble⟩ :=
        tmqMapPut_absent h hthresh habsent () hcap
      have hstep : mapStep final (.put (UInt32.ofNat n) () true true)
          = some (after, final.2 ++ [.status 0]) := by
        simp [mapStep, hput]
      refine ⟨ops ++ [.put (UInt32.ofNat n) () true true], (after, final.2 ++ [.status 0]), _, log',
        admissible_concat hops ?_, runs_concat hrun hstep, hafter, ?_, by rw [hlen', hlen], hthresh',
        hcap', ?_⟩
      · intro state _
        trivial
      · intro key
        have hsame : (UInt32.ofNat n == key) = true ↔ key.toNat = n := by
          rw [beq_iff_eq, ← UInt32.toNat_inj, hlt, eq_comm]
        by_cases heq : key.toNat = n
        · simp [FiniteMap.set, hsame.mpr heq, heq]
        · have hiff : key.toNat < n + 1 ↔ key.toNat < n := by omega
          simp [FiniteMap.set, mt hsame.mp heq, hkeys, hiff]
      · intro k hk hmany
        cases k with
        | zero => exact (hlog 0 (by omega) (Or.inr rfl)).trans hle
        | succ k =>
            have hbefore : 3 + k ≤ log := hlog k (by omega) (Or.inl (by omega))
            have hgrown := hdouble (by omega)
            omega

/-- With every 32-bit key in the map `size` is zero, and a clear overflows its
counter. -/
theorem map_overflow : ∃ (ops : List (MapOp UInt32 Unit))
    (final : MapBase UInt32 Unit × List (MapResult Unit)),
    Admissible MapOp.Allowed mapStep (⟨List.replicate 8 [], 8, 0, 75, 6⟩, []) ops ∧
      runs mapStep (⟨List.replicate 8 [], 8, 0, 75, 6⟩, []) ops = some final ∧
      (∀ key, tmqMapGet final.1 key = some (some ())) ∧ final.1.entries.length = 2 ^ 32 ∧
      final.1.size = 0 ∧ mapStep final .clear = none := by
  obtain ⟨ops, final, f, log, hops, hrun, h, hkeys, hlen, -, hcap, hlog⟩ :=
    @putKeys (2 ^ 32) le_rfl
  have hall : ∀ key, f key = some () := by
    intro key
    rw [hkeys, if_pos key.toNat_lt]
  have hsize : final.1.size = 0 := by
    rw [h.size, hlen]
    rfl
  have hlarge : (2147483647 : UInt32) < final.1.cap := by
    have hlast : 31 ≤ log := hlog 28 le_rfl (Or.inl (by decide))
    have hpow : 2 ^ 31 ≤ 2 ^ log := Nat.pow_le_pow_right (by decide) hlast
    rw [UInt32.lt_iff_toNat_lt, hcap]
    exact lt_of_lt_of_le (by decide) hpow
  refine ⟨ops, final, hops, hrun, ?_, hlen, hsize, ?_⟩
  · intro key
    rw [h.get, hall]
  · simp [mapStep, tmqMapClear, hlarge]

/-- Every sequence of calls on a default map returns what it returns on a
finite map, and leaves the same map. The entries, of which no two have the
same key, are in the buckets of their hashes; the capacity is a power of two,
and `size` is the number of the entries modulo 2^32. Iterating visits each
entry once and ends. -/
theorem map_refines_finiteMap {start : MapBase K V}
    (hnew : tmqMapNew mapDefaultCap mapDefaultLoadFactor true = some start)
    {ops : List (MapOp K V)} (hops : Admissible MapOp.Allowed mapStep (start, []) ops) :
    ∃ final, runs mapStep (start, []) ops = some final ∧
      final.2 = (ops.foldl finiteMapStep (fun _ => none, [])).2 ∧
      (∀ key, tmqMapGet final.1 key
        = some ((ops.foldl finiteMapStep (fun _ => none, [])).1 key)) ∧
      (∀ key, (ops.foldl finiteMapStep (fun _ => none, [])).1 key ≠ none ↔
        ∃ e ∈ final.1.entries, (e.key == key) = true) ∧
      (final.1.entries.Pairwise fun a b => (a.key == b.key) = false) ∧
      final.1.size = UInt32.ofNat final.1.entries.length ∧
      (∃ n, final.1.cap.toNat = 2 ^ n) ∧
      final.1.buckets.length = final.1.cap.toNat ∧
      (∀ i chain, final.1.buckets[i]? = some chain → ∀ e ∈ chain,
        (MapKey.hashFn e.key &&& (final.1.cap - 1)).toNat = i) ∧
      ∀ rounds, final.1.entries.length < rounds →
        mapLoop final.1 rounds (tmqMapIter final.1) = some final.1.entries := by
  have hstep : ∀ run abstract op, MapRefines run abstract → MapOp.Allowed run op →
      ∃ next, mapStep run op = some next ∧ @MapRefines K V _ next (finiteMapStep abstract op) := by
    intro run abstract op hrel hallowed
    exact mapStep_refines hrel hallowed
  have hinit : @MapRefines K V _ (start, []) (fun _ => none, []) :=
    ⟨tmqMapNew_represents hnew, rfl⟩
  obtain ⟨final, hrun, h, hresults⟩ := runs_simulates hstep hinit hops
  obtain ⟨n, -, -, hcap⟩ := h.cap
  refine ⟨final, hrun, hresults, h.get, h.describes.isSome_iff, h.describes.distinct, h.size,
    ⟨n, hcap⟩, h.buckets, ?_, fun _ => mapLoop_tmqMapIter h.buckets⟩
  intro i chain hchain e hmem
  obtain ⟨hhash, hindex⟩ := h.placed i chain hchain e hmem
  rwa [hhash] at hindex

/-- Two keys of one bucket, of which the first is erased. -/
theorem map_refines_finiteMap_collision :
    ∃ final, runs mapStep (⟨List.replicate 8 [], 8, 0, 75, 6⟩, [])
        [.put (1 : UInt32) true true true, .put 9 false true true, .erase 1] = some final ∧
      final.1.size = UInt32.ofNat final.1.entries.length := by
  obtain ⟨final, hrun, -, -, -, -, hsize, -⟩ := @map_refines_finiteMap UInt32 Bool _
    ⟨List.replicate 8 [], 8, 0, 75, 6⟩ tmqMapNew_default
    [.put 1 true true true, .put 9 false true true, .erase 1] (by decide)
  exact ⟨final, hrun, hsize⟩

end TinyMqtt
