import Mathlib.Tactic
import TinyMqtt.Base.Str

/-!
The hash map (`tmq_map_base_t`): an array of buckets whose length is a power
of two, each a chain of entries. A chain is the list of its entries, and an
entry is named by its bucket and its place in the chain. Whether `malloc` has
the memory is an input. An access outside the buckets has no result.
-/

namespace TinyMqtt

/-- A type of keys: `equal_fn`, which is an equivalence, and a `hash_fn` that
gives equal keys the same hash. -/
class MapKey (K : Type) extends BEq K, EquivBEq K where
  hashFn : K → UInt32
  hashFn_eq : ∀ a b : K, (a == b) = true → hashFn a = hashFn b

/-- `hash_32` and `equal_32`. -/
instance : MapKey UInt32 where
  hashFn key := key
  hashFn_eq _ _ h := eq_of_beq h

/-- `hash_64` and `equal_64`. -/
instance : MapKey UInt64 where
  hashFn key := key.toUInt32 ^^^ (key >>> 32).toUInt32
  hashFn_eq _ _ h := by rw [eq_of_beq h]

/-- `tmq_map_entry_t`, but for its link. -/
structure MapEntry (K V : Type) where
  hash : UInt32
  key : K
  value : V

/-- `tmq_map_base_t` between two calls, when only the first of its two arrays
of buckets is there. -/
structure MapBase (K V : Type) where
  buckets : List (List (MapEntry K V))
  cap : UInt32
  size : UInt32
  loadFac : UInt32
  remapThresh : UInt32

def mapDefaultCap : UInt32 := 0

def mapDefaultLoadFactor : UInt32 := 75

def uint32Max : UInt32 := 4294967295

variable {K V : Type}

/-- The entries, bucket by bucket. -/
def MapBase.entries (m : MapBase K V) : List (MapEntry K V) := m.buckets.flatten

/-- The loop of `tmq_map_alloc_buckets` that sets every bit below the highest
one set. -/
def fillBits (v : UInt32) : UInt32 :=
  ([1, 2, 4, 8, 16] : List UInt32).foldl (fun v i => v ||| (v >>> i)) v

/-- `tmq_map_alloc_buckets`: the empty buckets, and the new capacity. -/
def tmqMapAllocBuckets (cap growFactor : UInt32) (malloc : Bool) :
    Option (List (List (MapEntry K V)) × UInt32) :=
  if cap > uint32Max / growFactor then none
  else
    let v := if cap < 8 then 8 else cap * growFactor
    let v := fillBits (v - 1) + 1
    if malloc then some (List.replicate v.toNat [], v) else none

def tmqMapNew (cap factor : UInt32) (malloc : Bool) : Option (MapBase K V) :=
  if factor > 95 ∨ factor < 25 then none
  else do
    let (buckets, cap) ← tmqMapAllocBuckets cap 1 malloc
    some ⟨buckets, cap, 0, factor, cap * factor / 100⟩

/-- `tmq_map_bucket_index`, in a map of this capacity. -/
def tmqMapBucketIndex (cap : UInt32) (hash : UInt32) : Nat := (hash &&& (cap - 1)).toNat

/-- `tmq_map_insert_entry`: an entry becomes the first one of its bucket. -/
def tmqMapInsertEntry (cap : UInt32) (entry : MapEntry K V)
    (buckets : List (List (MapEntry K V))) : Option (List (List (MapEntry K V))) := do
  let chain ← buckets[tmqMapBucketIndex cap entry.hash]?
  some (buckets.set (tmqMapBucketIndex cap entry.hash) (entry :: chain))

/-- The loops of `tmq_map_grow`: each entry of each bucket is moved. -/
def remap (cap : UInt32) (old buckets : List (List (MapEntry K V))) :
    Option (List (List (MapEntry K V))) :=
  old.foldlM (fun buckets chain =>
    chain.foldlM (fun buckets entry => tmqMapInsertEntry cap entry buckets) buckets) buckets

/-- `tmq_map_grow`. Without memory for the buckets the map stays as it is. -/
def tmqMapGrow (m : MapBase K V) (malloc : Bool) : Option (MapBase K V) :=
  if m.size < m.remapThresh then some m
  else
    match tmqMapAllocBuckets m.cap 2 malloc with
    | none => some m
    | some (buckets, cap) => do
        let buckets ← remap cap m.buckets buckets
        some { m with buckets := buckets, cap := cap, remapThresh := cap * m.loadFac / 100 }

/-- `tmq_map_clear_`. The loop counts the buckets with an `int`, which the
largest capacity overflows. -/
def tmqMapClear (m : MapBase K V) : Option (MapBase K V) :=
  if 2147483647 < m.cap then none
  else some { m with buckets := m.buckets.map fun _ => [], size := 0 }

variable [MapKey K]

/-- `tmq_map_find_entry`: the bucket and the place of the entry of a key. -/
def tmqMapFindEntry (m : MapBase K V) (key : K) : Option (Option (Nat × Nat)) := do
  let hash := MapKey.hashFn key
  let chain ← m.buckets[tmqMapBucketIndex m.cap hash]?
  some ((chain.findIdx? fun entry => hash == entry.hash && entry.key == key).map
    (tmqMapBucketIndex m.cap hash, ·))

/-- `tmq_map_put_`, with whether there is memory for a new entry and for more
buckets. -/
def tmqMapPut (m : MapBase K V) (key : K) (value : V) (mallocEntry mallocBuckets : Bool) :
    Option (Int × MapBase K V) := do
  match ← tmqMapFindEntry m key with
  | some (bucketIdx, place) => do
      let chain ← m.buckets[bucketIdx]?
      let entry ← chain[place]?
      some (0, { m with
        buckets := m.buckets.set bucketIdx (chain.set place { entry with value := value }) })
  | none =>
      if !mallocEntry then some (-1, m)
      else do
        let m ← if m.size ≥ m.remapThresh then tmqMapGrow m mallocBuckets else some m
        let buckets ← tmqMapInsertEntry m.cap ⟨MapKey.hashFn key, key, value⟩ m.buckets
        some (0, { m with buckets := buckets, size := m.size + 1 })

/-- `tmq_map_get_`: the value, where the source returns a pointer to it. -/
def tmqMapGet (m : MapBase K V) (key : K) : Option (Option V) := do
  match ← tmqMapFindEntry m key with
  | some (bucketIdx, place) => do
      let chain ← m.buckets[bucketIdx]?
      let entry ← chain[place]?
      some (some entry.value)
  | none => some none

/-- `tmq_map_erase_`: the entry is taken out of its chain. -/
def tmqMapErase (m : MapBase K V) (key : K) : Option (MapBase K V) := do
  match ← tmqMapFindEntry m key with
  | some (bucketIdx, place) => do
      let chain ← m.buckets[bucketIdx]?
      some { m with buckets := m.buckets.set bucketIdx (chain.eraseIdx place), size := m.size - 1 }
  | none => some m

omit [MapKey K]

/-! ### Iteration -/

/-- `tmq_map_iter_t`: the bucket, and its chain from the entry on. -/
structure MapIter (K V : Type) where
  entry : List (MapEntry K V)
  bucketIdx : UInt32

def tmqNextBucket (m : MapBase K V) (cur : UInt32) : UInt32 :=
  if h : cur < m.cap then
    if (m.buckets[cur.toNat]?.getD []).isEmpty then tmqNextBucket m (cur + 1) else cur
  else uint32Max
termination_by m.cap.toNat - cur.toNat
decreasing_by
  have hcur : cur.toNat < m.cap.toNat := UInt32.lt_iff_toNat_lt.mp h
  have hcap := m.cap.toNat_lt
  have hone : (1 : UInt32).toNat = 1 := rfl
  rw [UInt32.toNat_add, hone, Nat.mod_eq_of_lt (by omega)]
  omega

/-- The iterator at the next bucket that is not empty, from one on. -/
def iterAt (m : MapBase K V) (cur : UInt32) : MapIter K V :=
  let bucketIdx := tmqNextBucket m cur
  ⟨if bucketIdx = uint32Max then [] else m.buckets[bucketIdx.toNat]?.getD [], bucketIdx⟩

def tmqMapIter (m : MapBase K V) : MapIter K V := iterAt m 0

def tmqMapIterNext (m : MapBase K V) (iter : MapIter K V) : MapIter K V :=
  if iter.bucketIdx = uint32Max then iter
  else if iter.entry.tail ≠ [] then { iter with entry := iter.entry.tail }
  else iterAt m (iter.bucketIdx + 1)

/-- A loop `for(it = tmq_map_iter(m); tmq_map_has_next(it); tmq_map_next(m, it))`
from an iterator on, with the entries it visits. It has no result while it is
still running after so many rounds. -/
def mapLoop (m : MapBase K V) : Nat → MapIter K V → Option (List (MapEntry K V))
  | 0, _ => none
  | rounds + 1, iter =>
      if iter.bucketIdx = uint32Max then some []
      else
        match iter.entry with
        | [] => none
        | entry :: _ => do
            let visited ← mapLoop m rounds (tmqMapIterNext m iter)
            some (entry :: visited)

end TinyMqtt
