import Mathlib.Data.List.Basic
import Mathlib.Tactic

/-!
A graph that patterns of keys are merged into. Every node has edges under keys,
a label and perhaps a value; the root is the node 0. A pattern is a sequence of
slots, each with the keys it takes. To add a slot is to link a child under each
of its keys to all the nodes that the slots before it lead to: a child that one
of them has already, or a new one. The graph then tells the paths that begin a
pattern from the others as long as two patterns that have a path in common have
the same paths before its last key, and the same label there.
-/

namespace PatternGraph

variable {K L V : Type*}

/-! ### Patterns -/

structure Slot (K L : Type*) where
  label : L
  keys : List K

section BeginsWith

variable {S T : Type*} {R : S → T → Prop}

def BeginsWith (R : S → T → Prop) (pattern : List S) (path : List T) : Prop :=
  ∀ (i : Nat) (b : T), path[i]? = some b → ∃ a : S, pattern[i]? = some a ∧ R a b

theorem beginsWith_nil (R : S → T → Prop) (pattern : List S) : BeginsWith R pattern [] := by
  intro i b hb
  rw [List.getElem?_nil] at hb
  cases hb

theorem beginsWith_concat (pattern : List S) (path : List T) (b : T) :
    BeginsWith R pattern (path ++ [b]) ↔
      BeginsWith R pattern path ∧ ∃ a, pattern[path.length]? = some a ∧ R a b := by
  constructor
  · intro h
    refine ⟨?_, h path.length b (List.getElem?_concat_length)⟩
    intro i b' hb
    apply h i b'
    rw [List.getElem?_append_left (List.getElem?_eq_some_iff.mp hb).1, hb]
  · rintro ⟨hpath, hlast⟩ i b' hb
    rcases Nat.lt_trichotomy i path.length with hlt | rfl | hgt
    · rw [List.getElem?_append_left hlt] at hb
      exact hpath i b' hb
    · rw [List.getElem?_concat_length] at hb
      obtain rfl := Option.some.inj hb
      exact hlast
    · rw [List.getElem?_eq_none (by simp; omega)] at hb
      cases hb

theorem BeginsWith.length_le {pattern : List S} {path : List T} (h : BeginsWith R pattern path) :
    path.length ≤ pattern.length := by
  by_contra hlt
  obtain ⟨a, ha, -⟩ := h pattern.length _ (List.getElem?_eq_getElem (by omega))
  rw [List.getElem?_eq_none le_rfl] at ha
  cases ha

/-- A path that begins the pattern begins with such a path. -/
theorem BeginsWith.left {pattern : List S} {path more : List T}
    (h : BeginsWith R pattern (path ++ more)) : BeginsWith R pattern path := by
  intro i b hb
  exact h i b ((List.getElem?_append_left (List.getElem?_eq_some_iff.mp hb).1).trans hb)

theorem BeginsWith.append {pattern : List S} {path : List T} (h : BeginsWith R pattern path)
    (more : List S) : BeginsWith R (pattern ++ more) path := by
  intro i b hb
  obtain ⟨a, ha, hab⟩ := h i b hb
  exact ⟨a, (List.getElem?_append_left (List.getElem?_eq_some_iff.mp ha).1).trans ha, hab⟩

/-- A path that is not longer than the first elements is about them alone. -/
theorem BeginsWith.of_append {pattern more : List S} {path : List T}
    (h : BeginsWith R (pattern ++ more) path) (hlength : path.length ≤ pattern.length) :
    BeginsWith R pattern path := by
  intro i b hb
  obtain ⟨a, ha, hab⟩ := h i b hb
  have hi := (List.getElem?_eq_some_iff.mp hb).1
  rw [List.getElem?_append_left (by omega)] at ha
  exact ⟨a, ha, hab⟩

theorem beginsWith_cons (a : S) (pattern : List S) (b : T) (path : List T) :
    BeginsWith R (a :: pattern) (b :: path) ↔ R a b ∧ BeginsWith R pattern path := by
  constructor
  · intro h
    obtain ⟨a', ha', hfirst⟩ := h 0 b rfl
    obtain rfl := Option.some.inj ha'
    exact ⟨hfirst, fun i b' hb => h (i + 1) b' hb⟩
  · rintro ⟨hfirst, hrest⟩ i b' hb
    cases i with
    | zero =>
        obtain rfl := Option.some.inj hb
        exact ⟨a, rfl, hfirst⟩
    | succ i => exact hrest i b' hb

/-- A path as long as the pattern goes with all of it. -/
theorem forall₂_iff_beginsWith (pattern : List S) (path : List T) :
    List.Forall₂ R pattern path ↔ path.length = pattern.length ∧ BeginsWith R pattern path := by
  induction pattern generalizing path with
  | nil =>
      constructor
      · intro h
        obtain rfl := List.forall₂_nil_left_iff.mp h
        exact ⟨rfl, beginsWith_nil R []⟩
      · rintro ⟨hlength, -⟩
        obtain rfl := List.length_eq_zero_iff.mp hlength
        exact List.Forall₂.nil
  | cons a pattern ih =>
      cases path with
      | nil => simp
      | cons b path =>
          rw [List.forall₂_cons, ih, beginsWith_cons, List.length_cons, List.length_cons,
            Nat.succ_inj]
          tauto

end BeginsWith

abbrev Begins (pattern : List (Slot K L)) (path : List K) : Prop :=
  BeginsWith (fun slot key => key ∈ slot.keys) pattern path

def Matches (pattern : List (Slot K L)) (path : List K) : Prop :=
  path.length = pattern.length ∧ Begins pattern path

theorem begins_nil (pattern : List (Slot K L)) : Begins pattern ([] : List K) :=
  beginsWith_nil _ pattern

theorem begins_concat (pattern : List (Slot K L)) (path : List K) (key : K) :
    Begins pattern (path ++ [key]) ↔
      Begins pattern path ∧ ∃ slot, pattern[path.length]? = some slot ∧ key ∈ slot.keys :=
  beginsWith_concat pattern path key

/-- One more key in the last slot. -/
theorem begins_add_key (pattern : List (Slot K L)) (label : L) (keys : List K) (key : K)
    (path : List K) :
    Begins (pattern ++ [⟨label, keys ++ [key]⟩]) path ↔
      Begins (pattern ++ [⟨label, keys⟩]) path ∨
        ∃ before, path = before ++ [key] ∧ before.length = pattern.length ∧
          Begins pattern before := by
  rcases List.eq_nil_or_concat path with rfl | ⟨before, last, rfl⟩
  · exact iff_of_true (begins_nil _) (Or.inl (begins_nil _))
  · rw [List.concat_eq_append, begins_concat, begins_concat]
    have hsame : ∀ slot : Slot K L, before.length ≤ pattern.length →
        (Begins (pattern ++ [slot]) before ↔ Begins pattern before) :=
      fun slot hle => ⟨fun h => h.of_append hle, fun h => h.append _⟩
    rcases Nat.lt_trichotomy before.length pattern.length with hlt | heq | hgt
    · rw [hsame _ hlt.le, hsame _ hlt.le, List.getElem?_append_left hlt,
        List.getElem?_append_left hlt]
      refine (or_iff_left ?_).symm
      rintro ⟨before', hpath, hlength, -⟩
      obtain ⟨rfl, -⟩ := List.append_inj' hpath rfl
      omega
    · rw [hsame _ heq.le, hsame _ heq.le, heq, List.getElem?_concat_length,
        List.getElem?_concat_length]
      constructor
      · rintro ⟨hbefore, slot, hslot, hmem⟩
        obtain rfl := Option.some.inj hslot
        rcases List.mem_append.mp hmem with hold | hnew
        · exact Or.inl ⟨hbefore, _, rfl, hold⟩
        · exact Or.inr ⟨before, by rw [List.mem_singleton.mp hnew], heq, hbefore⟩
      · rintro (⟨hbefore, slot, hslot, hmem⟩ | ⟨before', hpath, -, hbefore⟩)
        · obtain rfl := Option.some.inj hslot
          exact ⟨hbefore, _, rfl, List.mem_append_left _ hmem⟩
        · obtain ⟨rfl, hlast⟩ := List.append_inj' hpath rfl
          obtain ⟨rfl, -⟩ := List.cons.inj hlast
          exact ⟨hbefore, _, rfl, List.mem_append_right _ List.mem_cons_self⟩
    · have hnone : ∀ slot : Slot K L, ¬∃ slot', (pattern ++ [slot])[before.length]? = some slot' ∧
          last ∈ slot'.keys := by
        rintro slot ⟨slot', hslot, -⟩
        rw [List.getElem?_eq_none (by simp; omega)] at hslot
        cases hslot
      refine iff_of_false (fun h => hnone _ h.2) ?_
      rintro (h | ⟨before', hpath, hlength, -⟩)
      · exact hnone _ h.2
      · obtain ⟨rfl, -⟩ := List.append_inj' hpath rfl
        omega

theorem begins_add_key_cases {pattern : List (Slot K L)} {label : L} {keys : List K} {key key' : K}
    {path : List K} (h : Begins (pattern ++ [⟨label, keys ++ [key]⟩]) (path ++ [key'])) :
    Begins (pattern ++ [⟨label, keys⟩]) (path ++ [key']) ∨ key' = key ∧ Matches pattern path := by
  rcases (begins_add_key pattern label keys key _).mp h with hold | ⟨before, heq, hbefore⟩
  · exact Or.inl hold
  · obtain ⟨rfl, hkey⟩ := List.append_inj' heq rfl
    exact Or.inr ⟨(List.cons.inj hkey).1, hbefore⟩

theorem matches_of_begins_concat {pattern : List (Slot K L)} {slot : Slot K L} {path : List K}
    {key : K} (hlength : path.length = pattern.length)
    (h : Begins (pattern ++ [slot]) (path ++ [key])) : Matches pattern path :=
  ⟨hlength, ((begins_concat _ path key).mp h).1.of_append hlength.le⟩

/-- The keys of the last slot have nothing to do with the labels. -/
theorem label_eq_of_getElem? {pattern : List (Slot K L)} {label : L} {keys keys' : List K} {i : Nat}
    {slot slot' : Slot K L} (h : (pattern ++ [⟨label, keys⟩])[i]? = some slot)
    (h' : (pattern ++ [⟨label, keys'⟩])[i]? = some slot') : slot.label = slot'.label := by
  rcases Nat.lt_or_ge i pattern.length with hlt | hge
  · rw [List.getElem?_append_left hlt] at h h'
    rw [Option.some.inj (h.symm.trans h')]
  · rw [List.getElem?_append_right hge, List.getElem?_singleton] at h h'
    obtain ⟨-, h⟩ := Option.ite_none_right_eq_some.mp h
    obtain ⟨-, h'⟩ := Option.ite_none_right_eq_some.mp h'
    rw [← Option.some.inj h, ← Option.some.inj h']

theorem begins_no_key (pattern : List (Slot K L)) (label : L) (path : List K) :
    Begins (pattern ++ [⟨label, []⟩]) path ↔ Begins pattern path := by
  constructor
  · intro h i key hkey
    obtain ⟨slot, hslot, hmem⟩ := h i key hkey
    rcases Nat.lt_or_ge i pattern.length with hlt | hge
    · rw [List.getElem?_append_left hlt] at hslot
      exact ⟨slot, hslot, hmem⟩
    · rw [List.getElem?_append_right hge, List.getElem?_singleton] at hslot
      obtain ⟨-, hsome⟩ := Option.ite_none_right_eq_some.mp hslot
      obtain rfl := Option.some.inj hsome
      cases hmem
  · exact fun h => h.append _

/-- Two patterns that have a path in common have the same paths before its last
key, and the same label there. -/
def Compatible (p q : List (Slot K L)) : Prop :=
  ∀ path key, Begins p (path ++ [key]) → Begins q (path ++ [key]) →
    (∀ path', path'.length = path.length → (Begins p path' ↔ Begins q path')) ∧
      ∀ slot slot', p[path.length]? = some slot → q[path.length]? = some slot' →
        slot.label = slot'.label

/-! ### The graph -/

@[ext] structure Graph (K L V : Type*) where
  edges : Nat → K → Option Nat
  label : Nat → L
  value : Nat → Option V
  size : Nat

namespace Graph

def reach (g : Graph K L V) (path : List K) : Option Nat := path.foldlM g.edges 0

@[simp] theorem reach_nil (g : Graph K L V) : g.reach [] = some 0 := rfl

theorem reach_concat (g : Graph K L V) (path : List K) (key : K) :
    g.reach (path ++ [key]) = (g.reach path).bind fun n => g.edges n key := by
  rw [reach, List.foldlM_append]
  refine congrArg (Option.bind _) (funext fun n => ?_)
  simp only [List.foldlM_cons, List.foldlM_nil, bind_pure]

variable [DecidableEq K]

def share (g : Graph K L V) (nodes : List Nat) (key : K) (n : Nat) : Graph K L V :=
  { g with edges := fun m k => if m ∈ nodes ∧ k = key then some n else g.edges m k }

theorem share_nil (g : Graph K L V) (key : K) (n : Nat) : g.share [] key n = g := by
  simp [share]

/-- The nodes one by one. -/
theorem share_share (g : Graph K L V) (m : Nat) (nodes : List Nat) (key : K) (n : Nat) :
    (g.share [m] key n).share nodes key n = g.share (m :: nodes) key n := by
  apply Graph.ext
  · funext k key'
    simp only [share, List.mem_cons, List.not_mem_nil, or_false]
    by_cases hkey : key' = key
    · by_cases hm : k = m <;> by_cases hk : k ∈ nodes <;> simp [hkey, hm, hk]
    · simp [hkey]
  · rfl
  · rfl
  · rfl

theorem share_self {g : Graph K L V} {nodes : List Nat} {key : K} {n : Nat}
    (h : ∀ m ∈ nodes, g.edges m key = some n) : g.share nodes key n = g := by
  have hedges : (g.share nodes key n).edges = g.edges := by
    funext m k
    by_cases hlinked : m ∈ nodes ∧ k = key
    · exact (if_pos hlinked).trans (hlinked.2 ▸ (h m hlinked.1).symm)
    · exact if_neg hlinked
  exact Graph.ext hedges rfl rfl rfl

def alloc (g : Graph K L V) (label : L) : Graph K L V :=
  { edges := fun m => if m = g.size then fun _ => none else g.edges m
    label := fun m => if m = g.size then label else g.label m
    value := fun m => if m = g.size then none else g.value m
    size := g.size + 1 }

def grow (g : Graph K L V) (nodes : List Nat) (key : K) (label : L) : Graph K L V :=
  (g.alloc label).share nodes key g.size

/-- The child that one of the nodes has under a key, or else a new one, linked
to all of them. -/
def link (g : Graph K L V) (nodes : List Nat) (key : K) (label : L) : Graph K L V × Nat :=
  match nodes.findSome? fun m => g.edges m key with
  | some n => (g.share nodes key n, n)
  | none => ((g.alloc label).share nodes key g.size, g.size)

def linkKeys (nodes : List Nat) (label : L) : Graph K L V × List Nat → List K →
    Graph K L V × List Nat
  | (g, children), [] => (g, children)
  | (g, children), key :: keys =>
      linkKeys nodes label ((g.link nodes key label).1, children ++ [(g.link nodes key label).2])
        keys

def linkSlots : Graph K L V → List Nat → List (Slot K L) → Graph K L V × List Nat
  | g, nodes, [] => (g, nodes)
  | g, nodes, slot :: slots =>
      linkSlots (linkKeys nodes slot.label (g, []) slot.keys).1
        (linkKeys nodes slot.label (g, []) slot.keys).2 slots

def mark (g : Graph K L V) (nodes : List Nat) (v : V) : Graph K L V :=
  { g with value := fun m => if m ∈ nodes then some v else g.value m }

def addPattern (g : Graph K L V) (pattern : List (Slot K L)) (v : V) : Graph K L V :=
  (g.linkSlots [0] pattern).1.mark (g.linkSlots [0] pattern).2 v

end Graph

/-! ### What the graph knows -/

/-- The graph that the patterns have been merged into. -/
structure Merged (g : Graph K L V) (patterns : List (List (Slot K L))) : Prop where
  rooted : 0 < g.size
  bounded : ∀ n key m, g.edges n key = some m → m < g.size
  isolated : ∀ n, g.size ≤ n → ∀ key, g.edges n key = none
  reached : ∀ path, (∃ n, g.reach path = some n) ↔
    path = [] ∨ ∃ p ∈ patterns, Begins p path
  labels : ∀ p ∈ patterns, ∀ path key slot n, p[path.length]? = some slot →
    Begins p (path ++ [key]) → g.reach (path ++ [key]) = some n → g.label n = slot.label
  shared : ∀ path path' n, g.reach path = some n → g.reach path' = some n →
    path.length = path'.length ∧ path.getLast? = path'.getLast? ∧
      ∀ p ∈ patterns, Begins p path → Begins p path'
  merged : ∀ p ∈ patterns, ∀ path path' key, path.length = path'.length →
    Begins p (path ++ [key]) → Begins p (path' ++ [key]) →
      g.reach (path ++ [key]) = g.reach (path' ++ [key])

def Level (g : Graph K L V) (pattern : List (Slot K L)) (nodes : List Nat) : Prop :=
  ∀ n, n ∈ nodes ↔ ∃ path, Matches pattern path ∧ g.reach path = some n

namespace Merged

variable {g : Graph K L V} {patterns : List (List (Slot K L))} {p : List (Slot K L)}

theorem reach_lt (h : Merged g patterns) {path : List K} {n : Nat}
    (hreach : g.reach path = some n) : n < g.size := by
  rcases List.eq_nil_or_concat path with rfl | ⟨before, key, rfl⟩
  · obtain rfl := Option.some.inj hreach
    exact h.rooted
  · rw [List.concat_eq_append, Graph.reach_concat] at hreach
    obtain ⟨m, -, hm⟩ := Option.bind_eq_some_iff.mp hreach
    exact h.bounded m key n hm

theorem reach_of_begins (h : Merged g patterns) (hp : p ∈ patterns) {path : List K}
    (hpath : Begins p path) : ∃ n, g.reach path = some n :=
  (h.reached path).mpr (Or.inr ⟨p, hp, hpath⟩)

/-- Only what the patterns begin with matters. -/
theorem congr {q : List (Slot K L)} (h : Merged g (p :: patterns))
    (hbegins : ∀ path, Begins p path ↔ Begins q path)
    (hlabels : ∀ (i : Nat) (slot slot' : Slot K L), p[i]? = some slot → q[i]? = some slot' →
      slot.label = slot'.label) :
    Merged g (q :: patterns) := by
  refine { rooted := h.rooted, bounded := h.bounded, isolated := h.isolated, reached := ?_,
           labels := ?_, shared := ?_, merged := ?_ }
  · intro path
    rw [h.reached path, List.exists_mem_cons_iff, List.exists_mem_cons_iff, hbegins path]
  · refine List.forall_mem_cons.mpr ⟨?_, fun r hr => h.labels r (List.mem_cons_of_mem _ hr)⟩
    intro path key slot n hslot hpath hreach
    have hp := (hbegins _).mpr hpath
    obtain ⟨-, slot', hslot', -⟩ := (begins_concat p path key).mp hp
    rw [h.labels p List.mem_cons_self path key slot' n hslot' hp hreach]
    exact hlabels _ _ _ hslot' hslot
  · intro path path' n hreach hreach'
    obtain ⟨hlength, hlast, hall⟩ := h.shared path path' n hreach hreach'
    refine ⟨hlength, hlast, List.forall_mem_cons.mpr ⟨?_, (List.forall_mem_cons.mp hall).2⟩⟩
    intro hq
    exact (hbegins _).mp ((List.forall_mem_cons.mp hall).1 ((hbegins _).mpr hq))
  · refine List.forall_mem_cons.mpr ⟨?_, fun r hr => h.merged r (List.mem_cons_of_mem _ hr)⟩
    intro path path' key hlength hq hq'
    exact h.merged p List.mem_cons_self path path' key hlength ((hbegins _).mpr hq)
      ((hbegins _).mpr hq')

/-- The empty pattern is in every graph. -/
theorem cons_nil (h : Merged g patterns) : Merged g ([] :: patterns) := by
  have hempty : ∀ {path : List K}, Begins ([] : List (Slot K L)) path → path = [] :=
    fun hpath => List.length_eq_zero_iff.mp (Nat.le_zero.mp hpath.length_le)
  refine { rooted := h.rooted, bounded := h.bounded, isolated := h.isolated, reached := ?_,
           labels := ?_, shared := ?_, merged := ?_ }
  · intro path
    rw [h.reached path, List.exists_mem_cons_iff]
    constructor
    · rintro (hnil | hold)
      · exact Or.inl hnil
      · exact Or.inr (Or.inr hold)
    · rintro (hnil | hnil | hold)
      · exact Or.inl hnil
      · exact Or.inl (hempty hnil)
      · exact Or.inr hold
  · refine List.forall_mem_cons.mpr ⟨?_, h.labels⟩
    intro path key slot n hslot
    cases hslot
  · intro path path' n hreach hreach'
    obtain ⟨hlength, hlast, hall⟩ := h.shared path path' n hreach hreach'
    refine ⟨hlength, hlast, List.forall_mem_cons.mpr ⟨?_, hall⟩⟩
    intro hpath
    obtain rfl := hempty hpath
    rw [List.length_eq_zero_iff.mp hlength.symm]
    exact begins_nil _
  · refine List.forall_mem_cons.mpr ⟨?_, h.merged⟩
    intro path path' key _ hpath
    exact absurd (hempty hpath) (by simp)

section AddKey

variable {label : L} {keys nodes : List _} {key : K}

/-- The nodes before the slot are linked to from its pattern's paths alone. -/
theorem begins_of_reach (h : Merged g ((p ++ [⟨label, keys⟩]) :: patterns))
    (hnodes : Level g p nodes) {path : List K} {n : Nat} (hreach : g.reach path = some n)
    (hn : n ∈ nodes) : Matches p path := by
  obtain ⟨path', ⟨hlength', hpath'⟩, hreach'⟩ := (hnodes n).mp hn
  obtain ⟨hlength, -, hall⟩ := h.shared path' path n hreach' hreach
  have hbegins := hall _ List.mem_cons_self (hpath'.append _)
  have hmatches : path.length = p.length := hlength.symm.trans hlength'
  exact ⟨hmatches, hbegins.of_append hmatches.le⟩

/-- When one of the nodes has the child, a registered pattern has its path, and
then the paths of all of them. -/
theorem begins_of_child (h : Merged g ((p ++ [⟨label, keys⟩]) :: patterns))
    (hnodes : Level g p nodes)
    (hcompatible : ∀ q ∈ patterns, Compatible (p ++ [⟨label, keys ++ [key]⟩]) q)
    {n m : Nat} (hn : n ∈ nodes) (hm : g.edges n key = some m) :
    ∃ r ∈ (p ++ [⟨label, keys⟩]) :: patterns,
      (∀ path, path.length = p.length → (Begins r path ↔ Begins p path)) ∧
      (∀ path, Matches p path → Begins r (path ++ [key])) ∧
      ∃ slot, r[p.length]? = some slot ∧ slot.label = label := by
  obtain ⟨path, ⟨hlength, hpath⟩, hreach⟩ := (hnodes n).mp hn
  have hchild : g.reach (path ++ [key]) = some m := by
    rw [Graph.reach_concat, hreach]
    exact hm
  have hnew : Begins (p ++ [⟨label, keys ++ [key]⟩]) (path ++ [key]) :=
    (begins_add_key p label keys key _).mpr (Or.inr ⟨path, rfl, hlength, hpath⟩)
  have hsame : ∀ (slot : Slot K L) path', path'.length = p.length →
      (Begins (p ++ [slot]) path' ↔ Begins p path') := fun slot path' hlength' =>
    ⟨fun hbegins => hbegins.of_append hlength'.le, fun hbegins => hbegins.append _⟩
  obtain ⟨r, hr, hbegins⟩ := ((h.reached _).mp ⟨m, hchild⟩).resolve_left (by simp)
  obtain ⟨-, slot, hslot, hmem⟩ := (begins_concat r path key).mp hbegins
  have hpaths : ∀ path', path'.length = p.length → (Begins r path' ↔ Begins p path') := by
    rcases List.mem_cons.mp hr with rfl | hr'
    · exact hsame _
    · intro path' hlength'
      rw [← hsame ⟨label, keys ++ [key]⟩ path' hlength']
      exact ((hcompatible r hr' path key hnew hbegins).1 path' (hlength'.trans hlength.symm)).symm
  have hlabel : slot.label = label := by
    rcases List.mem_cons.mp hr with rfl | hr'
    · rw [hlength, List.getElem?_concat_length] at hslot
      rw [← Option.some.inj hslot]
    · have hnewSlot : (p ++ [⟨label, keys ++ [key]⟩])[path.length]?
          = some ⟨label, keys ++ [key]⟩ := by
        rw [hlength, List.getElem?_concat_length]
      exact ((hcompatible r hr' path key hnew hbegins).2 _ slot hnewSlot hslot).symm
  refine ⟨r, hr, hpaths, ?_, slot, hlength ▸ hslot, hlabel⟩
  rintro path' ⟨hlength', hpath'⟩
  refine (begins_concat r path' key).mpr ⟨(hpaths path' hlength').mpr hpath', slot, ?_, hmem⟩
  rw [hlength', ← hlength]
  exact hslot

/-- All the nodes have the child then. -/
theorem child_of_child (h : Merged g ((p ++ [⟨label, keys⟩]) :: patterns))
    (hnodes : Level g p nodes)
    (hcompatible : ∀ q ∈ patterns, Compatible (p ++ [⟨label, keys ++ [key]⟩]) q)
    {n n' m : Nat} (hn : n ∈ nodes) (hm : g.edges n key = some m) (hn' : n' ∈ nodes) :
    g.edges n' key = some m := by
  obtain ⟨r, hr, -, hbegins, -⟩ := h.begins_of_child hnodes hcompatible hn hm
  obtain ⟨path, hpath, hreach⟩ := (hnodes n).mp hn
  obtain ⟨path', hpath', hreach'⟩ := (hnodes n').mp hn'
  have hsame := h.merged r hr path path' key (hpath.1.trans hpath'.1.symm) (hbegins path hpath)
    (hbegins path' hpath')
  rw [Graph.reach_concat, Graph.reach_concat, hreach, hreach', Option.bind_some,
    Option.bind_some] at hsame
  exact hsame.symm.trans hm

/-- All the paths of the pattern lead to it. -/
theorem reach_child (h : Merged g ((p ++ [⟨label, keys⟩]) :: patterns))
    (hnodes : Level g p nodes)
    (hcompatible : ∀ q ∈ patterns, Compatible (p ++ [⟨label, keys ++ [key]⟩]) q)
    {n m : Nat} (hn : n ∈ nodes) (hm : g.edges n key = some m) {path : List K}
    (hpath : Matches p path) : g.reach (path ++ [key]) = some m := by
  obtain ⟨n', hn'⟩ := h.reach_of_begins List.mem_cons_self (hpath.2.append _)
  rw [Graph.reach_concat, hn', Option.bind_some]
  exact h.child_of_child hnodes hcompatible hn hm ((hnodes n').mpr ⟨path, hpath, hn'⟩)

/-- The new key names a child that is there already. -/
theorem add_key_old (h : Merged g ((p ++ [⟨label, keys⟩]) :: patterns))
    (hnodes : Level g p nodes)
    (hcompatible : ∀ q ∈ patterns, Compatible (p ++ [⟨label, keys ++ [key]⟩]) q)
    {n m : Nat} (hn : n ∈ nodes) (hm : g.edges n key = some m) :
    Merged g ((p ++ [⟨label, keys ++ [key]⟩]) :: patterns) := by
  obtain ⟨r, hr, hpaths, hbegins, slot, hslot, hlabel⟩ :=
    h.begins_of_child hnodes hcompatible hn hm
  have hreach : ∀ path, Matches p path → g.reach (path ++ [key]) = some m :=
    fun path hpath => h.reach_child hnodes hcompatible hn hm hpath
  refine { rooted := h.rooted, bounded := h.bounded, isolated := h.isolated, reached := ?_,
           labels := ?_, shared := ?_, merged := ?_ }
  · intro path
    rw [h.reached path, List.exists_mem_cons_iff, List.exists_mem_cons_iff, begins_add_key]
    refine or_congr_right ⟨fun hold => ?_, ?_⟩
    · exact hold.imp_left Or.inl
    · rintro ((hold | ⟨before, rfl, hlength, hbefore⟩) | hothers)
      · exact Or.inl hold
      · have hpath := hbegins before ⟨hlength, hbefore⟩
        rcases List.mem_cons.mp hr with rfl | hr'
        · exact Or.inl hpath
        · exact Or.inr ⟨r, hr', hpath⟩
      · exact Or.inr hothers
  · refine List.forall_mem_cons.mpr ⟨?_, fun q hq => h.labels q (List.mem_cons_of_mem _ hq)⟩
    intro path key' slot' n' hslot' hpath hpathReach
    rcases begins_add_key_cases hpath with hold | ⟨rfl, hmatches⟩
    · obtain ⟨-, old, hold', -⟩ := (begins_concat _ path key').mp hold
      rw [h.labels _ List.mem_cons_self path key' old n' hold' hold hpathReach]
      exact label_eq_of_getElem? hold' hslot'
    · rw [hmatches.1, List.getElem?_concat_length] at hslot'
      rw [← Option.some.inj hslot', ← hlabel]
      rw [hreach path hmatches] at hpathReach
      obtain rfl := Option.some.inj hpathReach
      exact h.labels r hr path key' slot m (hmatches.1 ▸ hslot) (hbegins path hmatches)
        (hreach path hmatches)
  · intro path path' n' hpathReach hpathReach'
    obtain ⟨hlength, hlast, hall⟩ := h.shared path path' n' hpathReach hpathReach'
    refine ⟨hlength, hlast, List.forall_mem_cons.mpr ⟨?_, (List.forall_mem_cons.mp hall).2⟩⟩
    intro hpath
    rcases (begins_add_key p label keys key _).mp hpath with hold | ⟨before, rfl, hbefore⟩
    · exact (begins_add_key p label keys key _).mpr
        (Or.inl ((List.forall_mem_cons.mp hall).1 hold))
    · -- the other path ends with the same key, after a path of the same pattern
      rcases List.eq_nil_or_concat path' with rfl | ⟨before', last, rfl⟩
      · simp at hlength
      · rw [List.concat_eq_append] at hlength hlast hall ⊢
        obtain rfl : key = last := by simpa using hlast
        have hlength' : before'.length = p.length := by
          simp only [List.length_append, List.length_singleton] at hlength
          omega
        have hother := ((begins_concat r before' key).mp (hall r hr (hbegins before hbefore))).1
        exact (begins_add_key p label keys key _).mpr
          (Or.inr ⟨before', rfl, hlength', (hpaths before' hlength').mp hother⟩)
  · refine List.forall_mem_cons.mpr ⟨?_, fun q hq => h.merged q (List.mem_cons_of_mem _ hq)⟩
    intro path path' key' hlength hpath hpath'
    rcases begins_add_key_cases hpath with hold | ⟨rfl, hmatches⟩
    · rcases begins_add_key_cases hpath' with hold' | ⟨rfl, hmatches'⟩
      · exact h.merged _ List.mem_cons_self path path' key' hlength hold hold'
      · rw [hreach path' hmatches',
          hreach path (matches_of_begins_concat (hlength.trans hmatches'.1) hpath)]
    · rw [hreach path hmatches,
        hreach path' (matches_of_begins_concat (hlength.symm.trans hmatches.1) hpath')]

theorem level_lt (h : Merged g patterns) (hnodes : Level g p nodes) : ∀ n ∈ nodes, n < g.size := by
  intro n hn
  obtain ⟨path, -, hreach⟩ := (hnodes n).mp hn
  exact h.reach_lt hreach

/-- Nothing led to the new child before. -/
theorem unreached_of_none (h : Merged g ((p ++ [⟨label, keys⟩]) :: patterns))
    (hnodes : Level g p nodes) (hnone : ∀ n ∈ nodes, g.edges n key = none) {path : List K}
    (hpath : Matches p path) : g.reach (path ++ [key]) = none := by
  obtain ⟨n, hn⟩ := h.reach_of_begins List.mem_cons_self (hpath.2.append _)
  rw [Graph.reach_concat, hn, Option.bind_some]
  exact hnone n ((hnodes n).mpr ⟨path, hpath, hn⟩)

variable [DecidableEq K]

theorem edges_grow {n : Nat} (hn : n < g.size) (nodes : List Nat) (key : K) (label : L) (k : K) :
    (g.grow nodes key label).edges n k =
      if n ∈ nodes ∧ k = key then some g.size else g.edges n k := by
  change (if n ∈ nodes ∧ k = key then some g.size
    else (if n = g.size then fun _ => none else g.edges n) k) = _
  rw [if_neg hn.ne]

/-- An edge is one to the new child, or was there before. -/
theorem edges_grow_cases {n m : Nat} {k : K} (h : (g.grow nodes key label).edges n k = some m) :
    (n ∈ nodes ∧ k = key ∧ m = g.size) ∨ g.edges n k = some m := by
  change (if n ∈ nodes ∧ k = key then some g.size
    else (if n = g.size then fun _ => none else g.edges n) k) = some m at h
  by_cases hlinked : n ∈ nodes ∧ k = key
  · rw [if_pos hlinked] at h
    exact Or.inl ⟨hlinked.1, hlinked.2, (Option.some.inj h).symm⟩
  · rw [if_neg hlinked] at h
    by_cases hn : n = g.size
    · rw [if_pos hn] at h
      cases h
    · rw [if_neg hn] at h
      exact Or.inr h

/-- The paths after a new child has been linked: the old ones, and those to the
child. -/
theorem reach_grow (h : Merged g patterns) (label : L) (hnodes : ∀ n ∈ nodes, n < g.size)
    (hnone : ∀ n ∈ nodes, g.edges n key = none) (path : List K) (m : Nat) :
    (g.grow nodes key label).reach path = some m ↔
      g.reach path = some m ∨
        m = g.size ∧ ∃ before, path = before ++ [key] ∧ ∃ n ∈ nodes, g.reach before = some n := by
  induction path using List.reverseRecOn generalizing m with
  | nil => simp
  | append_singleton before k ih =>
      rw [Graph.reach_concat, Graph.reach_concat, Option.bind_eq_some_iff, Option.bind_eq_some_iff]
      constructor
      · rintro ⟨n, hn, hm⟩
        rcases edges_grow_cases hm with ⟨hmem, rfl, rfl⟩ | hm
        · have hold : g.reach before = some n := by
            refine ((ih n).mp hn).resolve_right ?_
            rintro ⟨rfl, -⟩
            exact (hnodes _ hmem).false
          exact Or.inr ⟨rfl, before, rfl, n, hmem, hold⟩
        · have hold : g.reach before = some n := by
            refine ((ih n).mp hn).resolve_right ?_
            -- the new node has no children
            rintro ⟨rfl, -⟩
            rw [h.isolated g.size le_rfl] at hm
            cases hm
          exact Or.inl ⟨n, hold, hm⟩
      · rintro (⟨n, hold, hm⟩ | ⟨rfl, before', heq, n, hmem, hold⟩)
        · refine ⟨n, (ih n).mpr (Or.inl hold), ?_⟩
          rw [edges_grow (h.reach_lt hold), if_neg, hm]
          rintro ⟨hmem, rfl⟩
          rw [hnone n hmem] at hm
          cases hm
        · obtain ⟨rfl, hkey⟩ := List.append_inj' heq rfl
          obtain ⟨rfl, -⟩ := List.cons.inj hkey
          refine ⟨n, (ih n).mpr (Or.inl hold), ?_⟩
          rw [edges_grow (h.reach_lt hold), if_pos ⟨hmem, rfl⟩]

/-- What was reached before stays where it was. -/
theorem reach_stays (h : Merged g patterns) (label : L) (hnodes : Level g p nodes)
    (hnone : ∀ n ∈ nodes, g.edges n key = none) {path : List K} {n : Nat}
    (hold : g.reach path = some n) : (g.grow nodes key label).reach path = some n :=
  (h.reach_grow label (h.level_lt hnodes) hnone _ _).mpr (Or.inl hold)

section Grow

variable (h : Merged g ((p ++ [⟨label, keys⟩]) :: patterns)) (hnodes : Level g p nodes)
  (hnone : ∀ n ∈ nodes, g.edges n key = none)

include h hnodes hnone

theorem reach_new {path : List K} (hpath : Matches p path) :
    (g.grow nodes key label).reach (path ++ [key]) = some g.size := by
  obtain ⟨n, hn⟩ := h.reach_of_begins List.mem_cons_self (hpath.2.append _)
  exact (h.reach_grow label (h.level_lt hnodes) hnone _ _).mpr
    (Or.inr ⟨rfl, path, rfl, n, (hnodes n).mpr ⟨path, hpath, hn⟩, hn⟩)

/-- A path of an old pattern leads where it did. -/
theorem reach_old {r : List (Slot K L)} (hr : r ∈ (p ++ [⟨label, keys⟩]) :: patterns)
    {path : List K} (hpath : Begins r path) :
    ∃ n, g.reach path = some n ∧ (g.grow nodes key label).reach path = some n := by
  obtain ⟨n, hn⟩ := h.reach_of_begins hr hpath
  exact ⟨n, hn, h.reach_stays label hnodes hnone hn⟩

theorem reached_grow (path : List K) :
    (∃ n, (g.grow nodes key label).reach path = some n) ↔
      path = [] ∨ ∃ r ∈ (p ++ [⟨label, keys ++ [key]⟩]) :: patterns, Begins r path := by
  rw [List.exists_mem_cons_iff, begins_add_key]
  constructor
  · rintro ⟨m, hm⟩
    rcases (h.reach_grow label (h.level_lt hnodes) hnone path m).mp hm with
      hm | ⟨-, before, rfl, n, hn, hpath⟩
    · have hbegins := (h.reached path).mp ⟨m, hm⟩
      rw [List.exists_mem_cons_iff] at hbegins
      exact hbegins.imp_right (Or.imp_left Or.inl)
    · obtain ⟨hlength, hbegins⟩ := h.begins_of_reach hnodes hpath hn
      exact Or.inr (Or.inl (Or.inr ⟨before, rfl, hlength, hbegins⟩))
  · rintro (rfl | (hpath | ⟨before, rfl, hpath⟩) | ⟨r, hr, hpath⟩)
    · exact ⟨0, rfl⟩
    · obtain ⟨m, -, hm⟩ := h.reach_old hnodes hnone List.mem_cons_self hpath
      exact ⟨m, hm⟩
    · exact ⟨g.size, h.reach_new hnodes hnone hpath⟩
    · obtain ⟨m, -, hm⟩ := h.reach_old hnodes hnone (List.mem_cons_of_mem _ hr) hpath
      exact ⟨m, hm⟩

/-- The labels of the old patterns stay. -/
theorem label_old {r : List (Slot K L)} (hr : r ∈ (p ++ [⟨label, keys⟩]) :: patterns)
    {path : List K} {k : K} {slot : Slot K L} {n : Nat} (hslot : r[path.length]? = some slot)
    (hpath : Begins r (path ++ [k]))
    (hn : (g.grow nodes key label).reach (path ++ [k]) = some n) :
    (g.grow nodes key label).label n = slot.label := by
  obtain ⟨m, hm, hstays⟩ := h.reach_old hnodes hnone hr hpath
  obtain rfl := Option.some.inj (hstays.symm.trans hn)
  exact (if_neg (h.reach_lt hm).ne).trans (h.labels r hr path k slot m hslot hpath hm)

/-- The label of the pattern's last slot is that of the child. -/
theorem label_new {path : List K} {k : K} {slot : Slot K L} {n : Nat}
    (hslot : (p ++ [⟨label, keys ++ [key]⟩])[path.length]? = some slot)
    (hpath : Begins (p ++ [⟨label, keys ++ [key]⟩]) (path ++ [k]))
    (hn : (g.grow nodes key label).reach (path ++ [k]) = some n) :
    (g.grow nodes key label).label n = slot.label := by
  rcases begins_add_key_cases hpath with hpath | ⟨rfl, hmatches⟩
  · obtain ⟨-, slot', hslot', -⟩ := (begins_concat _ path k).mp hpath
    rw [h.label_old hnodes hnone List.mem_cons_self hslot' hpath hn]
    exact label_eq_of_getElem? hslot' hslot
  · rw [h.reach_new hnodes hnone hmatches] at hn
    obtain rfl := Option.some.inj hn
    rw [hmatches.1, List.getElem?_concat_length] at hslot
    rw [← Option.some.inj hslot]
    exact if_pos rfl

/-- Two paths to one node, which is an old one or the new child. -/
theorem shared_grow {path path' : List K} {n : Nat}
    (hn : (g.grow nodes key label).reach path = some n)
    (hn' : (g.grow nodes key label).reach path' = some n) :
    path.length = path'.length ∧ path.getLast? = path'.getLast? ∧
      ∀ r ∈ (p ++ [⟨label, keys ++ [key]⟩]) :: patterns, Begins r path → Begins r path' := by
  have hreach := h.reach_grow label (h.level_lt hnodes) hnone
  rcases (hreach path n).mp hn with hm | ⟨rfl, before, rfl, q, hq, hbefore⟩
  · have hm' : g.reach path' = some n := by
      refine ((hreach path' n).mp hn').resolve_right ?_
      rintro ⟨rfl, -⟩
      exact (h.reach_lt hm).false
    obtain ⟨hlength, hlast, hall⟩ := h.shared path path' n hm hm'
    refine ⟨hlength, hlast, List.forall_mem_cons.mpr ⟨?_, (List.forall_mem_cons.mp hall).2⟩⟩
    intro hpath
    rcases (begins_add_key p label keys key _).mp hpath with hpath | ⟨before, rfl, hbefore⟩
    · exact (begins_add_key p label keys key _).mpr (Or.inl (hall _ List.mem_cons_self hpath))
    · rw [h.unreached_of_none hnodes hnone hbefore] at hm
      cases hm
  · obtain ⟨-, before', rfl, q', hq', hbefore'⟩ :=
      ((hreach path' g.size).mp hn').resolve_left fun hm => (h.reach_lt hm).false
    have hmatches := h.begins_of_reach hnodes hbefore hq
    have hmatches' := h.begins_of_reach hnodes hbefore' hq'
    refine ⟨by simp [hmatches.1, hmatches'.1], by simp, List.forall_mem_cons.mpr ⟨?_, ?_⟩⟩
    · intro _
      exact (begins_add_key p label keys key _).mpr (Or.inr ⟨before', rfl, hmatches'⟩)
    · intro r hr hpath
      obtain ⟨m, hm⟩ := h.reach_of_begins (List.mem_cons_of_mem _ hr) hpath
      rw [h.unreached_of_none hnodes hnone hmatches] at hm
      cases hm

/-- Paths of an old pattern that end with the same key lead to the same node. -/
theorem merged_old {r : List (Slot K L)} (hr : r ∈ (p ++ [⟨label, keys⟩]) :: patterns)
    {path path' : List K} {k : K} (hlength : path.length = path'.length)
    (hpath : Begins r (path ++ [k])) (hpath' : Begins r (path' ++ [k])) :
    (g.grow nodes key label).reach (path ++ [k])
      = (g.grow nodes key label).reach (path' ++ [k]) := by
  obtain ⟨m, hm, hstays⟩ := h.reach_old hnodes hnone hr hpath
  obtain ⟨m', hm', hstays'⟩ := h.reach_old hnodes hnone hr hpath'
  rw [hstays, hstays', ← hm, ← hm', h.merged r hr path path' k hlength hpath hpath']

theorem merged_new {path path' : List K} {k : K} (hlength : path.length = path'.length)
    (hpath : Begins (p ++ [⟨label, keys ++ [key]⟩]) (path ++ [k]))
    (hpath' : Begins (p ++ [⟨label, keys ++ [key]⟩]) (path' ++ [k])) :
    (g.grow nodes key label).reach (path ++ [k])
      = (g.grow nodes key label).reach (path' ++ [k]) := by
  rcases begins_add_key_cases hpath with hold | ⟨rfl, hmatches⟩
  · rcases begins_add_key_cases hpath' with hold' | ⟨rfl, hmatches'⟩
    · exact h.merged_old hnodes hnone List.mem_cons_self hlength hold hold'
    · rw [h.reach_new hnodes hnone hmatches', h.reach_new hnodes hnone
        (matches_of_begins_concat (hlength.trans hmatches'.1) hpath)]
  · rw [h.reach_new hnodes hnone hmatches, h.reach_new hnodes hnone
      (matches_of_begins_concat (hlength.symm.trans hmatches.1) hpath')]

/-- The new key names a new child. -/
theorem add_key_new :
    Merged (g.grow nodes key label) ((p ++ [⟨label, keys ++ [key]⟩]) :: patterns) := by
  refine { rooted := Nat.succ_pos _, bounded := ?_, isolated := ?_,
           reached := h.reached_grow hnodes hnone, labels := ?_,
           shared := fun path path' n => h.shared_grow hnodes hnone, merged := ?_ }
  · intro n k m hm
    rcases edges_grow_cases hm with ⟨-, -, rfl⟩ | hold
    · exact Nat.lt_succ_self _
    · exact Nat.lt_succ_of_lt (h.bounded n k m hold)
  · intro n hn k
    apply Option.eq_none_iff_forall_ne_some.mpr
    intro m hm
    rcases edges_grow_cases hm with ⟨hmem, -, -⟩ | hold
    · exact absurd (h.level_lt hnodes n hmem) (Nat.le_of_succ_le hn).not_gt
    · rw [h.isolated n (Nat.le_of_succ_le hn)] at hold
      cases hold
  · refine List.forall_mem_cons.mpr
      ⟨fun _ _ _ _ => h.label_new hnodes hnone, fun r hr _ _ _ _ => ?_⟩
    exact h.label_old hnodes hnone (List.mem_cons_of_mem _ hr)
  · refine List.forall_mem_cons.mpr
      ⟨fun _ _ _ => h.merged_new hnodes hnone, fun r hr _ _ _ => ?_⟩
    exact h.merged_old hnodes hnone (List.mem_cons_of_mem _ hr)

end Grow

end AddKey

end Merged

/-! ### Adding patterns -/

/-- A pattern that ends earlier, with some of the keys of its last slot. -/
theorem Compatible.narrow {p q more : List (Slot K L)} {slot : Slot K L} {keys : List K}
    (h : Compatible (p ++ slot :: more) q) (hkeys : keys ⊆ slot.keys) :
    Compatible (p ++ [⟨slot.label, keys⟩]) q := by
  intro path key hpath hq
  have hlength := hpath.length_le
  simp only [List.length_append, List.length_singleton] at hlength
  have hle : path.length ≤ p.length := by omega
  have hwide : Begins (p ++ slot :: more) (path ++ [key]) := by
    obtain ⟨hbefore, slot', hslot', hmem⟩ := (begins_concat _ path key).mp hpath
    refine (begins_concat _ path key).mpr ⟨(hbefore.of_append hle).append _, ?_⟩
    rcases Nat.lt_or_ge path.length p.length with hlt | hge
    · rw [List.getElem?_append_left hlt] at hslot' ⊢
      exact ⟨slot', hslot', hmem⟩
    · obtain heq : path.length = p.length := le_antisymm hle hge
      rw [heq, List.getElem?_concat_length] at hslot'
      rw [heq, List.getElem?_append_right le_rfl, Nat.sub_self]
      obtain rfl := Option.some.inj hslot'
      exact ⟨slot, rfl, hkeys hmem⟩
  obtain ⟨hpaths, hlabels⟩ := h path key hwide hq
  constructor
  · intro path' hlength'
    rw [← hpaths path' hlength']
    have hle' : path'.length ≤ p.length := hlength'.le.trans hle
    exact ⟨fun hbegins => (hbegins.of_append hle').append _,
      fun hbegins => (hbegins.of_append hle').append _⟩
  · intro slot' other hslot' hother
    rcases Nat.lt_or_ge path.length p.length with hlt | hge
    · rw [List.getElem?_append_left hlt] at hslot'
      exact hlabels slot' other ((List.getElem?_append_left hlt).trans hslot') hother
    · obtain heq : path.length = p.length := le_antisymm hle hge
      rw [heq, List.getElem?_concat_length] at hslot'
      rw [← Option.some.inj hslot']
      refine hlabels slot other ?_ hother
      rw [heq, List.getElem?_append_right le_rfl, Nat.sub_self]
      rfl

def Valued (g : Graph K L V) (entries : List (List (Slot K L) × V)) : Prop :=
  ∀ path n, g.reach path = some n →
    (∀ v, g.value n = some v → ∃ entry ∈ entries, Matches entry.1 path ∧ entry.2 = v) ∧
      (g.value n = none → ∀ entry ∈ entries, ¬Matches entry.1 path)

/-- In the middle of adding a slot: the keys so far, and their children. -/
structure Linking (g : Graph K L V) (entries : List (List (Slot K L) × V))
    (p : List (Slot K L)) (nodes : List Nat) (label : L) (keys : List K) (children : List Nat) :
    Prop where
  merged : Merged g ((p ++ [⟨label, keys⟩]) :: entries.map Prod.fst)
  parents : Level g p nodes
  children : Level g (p ++ [⟨label, keys⟩]) children
  values : Valued g entries

namespace Linking

variable {g : Graph K L V} {entries : List (List (Slot K L) × V)} {p : List (Slot K L)}
  {nodes children : List Nat} {label : L} {keys : List K} {key : K}

/-- One more child, whichever it is. -/
theorem add_child {g' : Graph K L V} {m : Nat} (h : Linking g entries p nodes label keys children)
    (hne : nodes ≠ [])
    (hmerged : Merged g' ((p ++ [⟨label, keys ++ [key]⟩]) :: entries.map Prod.fst))
    (hstays : ∀ path n, g.reach path = some n → g'.reach path = some n)
    (hnew : ∀ path, Matches p path → g'.reach (path ++ [key]) = some m)
    (hvalues : Valued g' entries) :
    Linking g' entries p nodes label (keys ++ [key]) (children ++ [m]) := by
  have hold : ∀ path, Begins (p ++ [⟨label, keys⟩]) path → g'.reach path = g.reach path := by
    intro path hpath
    obtain ⟨n, hn⟩ := h.merged.reach_of_begins List.mem_cons_self hpath
    rw [hn, hstays path n hn]
  refine { merged := hmerged, parents := ?_, children := ?_, values := hvalues }
  · intro n
    rw [h.parents n]
    refine exists_congr fun path => and_congr_right fun hpath => ?_
    rw [hold path (hpath.2.append _)]
  · intro n
    rw [List.mem_append, List.mem_singleton, h.children n]
    constructor
    · rintro (⟨path, ⟨hlength, hpath⟩, hreach⟩ | rfl)
      · refine ⟨path, ⟨by simpa using hlength, ?_⟩, hstays path n hreach⟩
        exact (begins_add_key p label keys key _).mpr (Or.inl hpath)
      · obtain ⟨q, hq⟩ := List.exists_mem_of_ne_nil nodes hne
        obtain ⟨path, hpath, -⟩ := (h.parents q).mp hq
        refine ⟨path ++ [key], ⟨by simp [hpath.1], ?_⟩, hnew path hpath⟩
        exact (begins_add_key p label keys key _).mpr (Or.inr ⟨path, rfl, hpath⟩)
    · rintro ⟨path, ⟨hlength, hpath⟩, hreach⟩
      rcases (begins_add_key p label keys key _).mp hpath with hpath | ⟨before, rfl, hbefore⟩
      · exact Or.inl ⟨path, ⟨by simpa using hlength, hpath⟩, hold path hpath ▸ hreach⟩
      · exact Or.inr (Option.some.inj (hreach.symm.trans (hnew before hbefore)))

variable [DecidableEq K]

/-- The new child has no value, and no path of an entry leads to it. -/
theorem valued_grow (h : Linking g entries p nodes label keys children)
    (hnone : ∀ n ∈ nodes, g.edges n key = none) : Valued (g.grow nodes key label) entries := by
  intro path n hn
  rcases (h.merged.reach_grow label (h.merged.level_lt h.parents) hnone path n).mp hn
    with hold | ⟨rfl, before, rfl, q, hq, hbefore⟩
  · have hvalue : (g.grow nodes key label).value n = g.value n :=
      if_neg (h.merged.reach_lt hold).ne
    rw [hvalue]
    exact h.values path n hold
  · have hvalue : (g.grow nodes key label).value g.size = none := if_pos rfl
    rw [hvalue]
    refine ⟨fun v hv => absurd hv (Option.some_ne_none v).symm, fun _ entry hentry hmatches => ?_⟩
    obtain ⟨m, hm⟩ := h.merged.reach_of_begins
      (List.mem_cons_of_mem _ (List.mem_map_of_mem hentry)) hmatches.2
    rw [h.merged.unreached_of_none h.parents hnone
      (h.merged.begins_of_reach h.parents hbefore hq)] at hm
    cases hm

/-- One more key. -/
theorem link (h : Linking g entries p nodes label keys children) (hne : nodes ≠ [])
    (hcompatible : ∀ entry ∈ entries, Compatible (p ++ [⟨label, keys ++ [key]⟩]) entry.1) :
    Linking (g.link nodes key label).1 entries p nodes label (keys ++ [key])
      (children ++ [(g.link nodes key label).2]) := by
  have hpatterns : ∀ q ∈ entries.map Prod.fst, Compatible (p ++ [⟨label, keys ++ [key]⟩]) q :=
    List.forall_mem_map.mpr hcompatible
  rw [Graph.link]
  cases hfind : nodes.findSome? fun m => g.edges m key with
  | some m =>
      obtain ⟨n, hn, hm⟩ := List.exists_of_findSome?_eq_some hfind
      have hall : ∀ n' ∈ nodes, g.edges n' key = some m :=
        fun n' hn' => h.merged.child_of_child h.parents hpatterns hn hm hn'
      change Linking (g.share nodes key m) entries p nodes label (keys ++ [key]) (children ++ [m])
      rw [Graph.share_self hall]
      exact h.add_child hne (h.merged.add_key_old h.parents hpatterns hn hm) (fun _ _ hold => hold)
        (fun _ hpath => h.merged.reach_child h.parents hpatterns hn hm hpath) h.values
  | none =>
      have hnone : ∀ n ∈ nodes, g.edges n key = none := List.findSome?_eq_none_iff.mp hfind
      change Linking (g.grow nodes key label) entries p nodes label (keys ++ [key])
        (children ++ [g.size])
      exact h.add_child hne (h.merged.add_key_new h.parents hnone)
        (fun _ _ hold => h.merged.reach_stays label h.parents hnone hold)
        (fun _ hpath => h.merged.reach_new h.parents hnone hpath) (h.valued_grow hnone)

/-- All the keys of a slot. -/
theorem linkKeys (h : Linking g entries p nodes label keys children) (hne : nodes ≠ [])
    {more : List (Slot K L)} {rest : List K}
    (hcompatible : ∀ entry ∈ entries,
      Compatible (p ++ ⟨label, keys ++ rest⟩ :: more) entry.1) :
    Linking (Graph.linkKeys nodes label (g, children) rest).1 entries p nodes label (keys ++ rest)
      (Graph.linkKeys nodes label (g, children) rest).2 := by
  induction rest generalizing g keys children with
  | nil =>
      rw [List.append_nil]
      exact h
  | cons key rest ih =>
      have hsplit : keys ++ key :: rest = keys ++ [key] ++ rest := by simp
      rw [hsplit] at hcompatible ⊢
      refine ih (h.link hne fun entry hentry => ?_) hcompatible
      exact (hcompatible entry hentry).narrow (List.subset_append_left _ _)

end Linking

/-- The graph of the entries: the patterns merged, with the values at their
ends. -/
structure Represents (g : Graph K L V) (entries : List (List (Slot K L) × V)) : Prop where
  merged : Merged g (entries.map Prod.fst)
  values : Valued g entries

def Graph.empty (label : Nat → L) : Graph K L V :=
  { edges := fun _ _ => none, label := label, value := fun _ => none, size := 1 }

theorem represents_empty (label : Nat → L) :
    Represents (Graph.empty label : Graph K L V) [] := by
  have hreach : ∀ path n, (Graph.empty label : Graph K L V).reach path = some n → path = [] := by
    intro path n hn
    rcases List.eq_nil_or_concat path with rfl | ⟨before, key, rfl⟩
    · rfl
    · rw [List.concat_eq_append, Graph.reach_concat] at hn
      obtain ⟨_, -, hnone⟩ := Option.bind_eq_some_iff.mp hn
      cases hnone
  constructor
  · refine { rooted := Nat.one_pos,
             bounded := fun _ _ _ hnone => absurd hnone (by simp [Graph.empty]),
             isolated := fun _ _ _ => rfl, reached := ?_, labels := ?_, shared := ?_, merged := ?_ }
    · intro path
      constructor
      · rintro ⟨n, hn⟩
        exact Or.inl (hreach path n hn)
      · rintro (rfl | ⟨p, hp, -⟩)
        · exact ⟨0, rfl⟩
        · cases hp
    · intro p hp
      cases hp
    · intro path path' n hn hn'
      obtain rfl := hreach path n hn
      obtain rfl := hreach path' n hn'
      refine ⟨rfl, rfl, fun p hp => ?_⟩
      cases hp
    · intro p hp
      cases hp
  · intro path n _
    refine ⟨fun v hv => ?_, fun _ entry hentry => ?_⟩
    · cases hv
    · cases hentry

theorem Merged.of_mem_iff {g : Graph K L V} {patterns patterns' : List (List (Slot K L))}
    (h : Merged g patterns) (hmem : ∀ p, p ∈ patterns ↔ p ∈ patterns') : Merged g patterns' := by
  refine { rooted := h.rooted, bounded := h.bounded, isolated := h.isolated, reached := ?_,
           labels := fun p hp => h.labels p ((hmem p).mpr hp), shared := ?_,
           merged := fun p hp => h.merged p ((hmem p).mpr hp) }
  · intro path
    rw [h.reached path]
    exact or_congr_right (exists_congr fun p => and_congr_left fun _ => hmem p)
  · intro path path' n hn hn'
    obtain ⟨hlength, hlast, hall⟩ := h.shared path path' n hn hn'
    exact ⟨hlength, hlast, fun p hp => hall p ((hmem p).mpr hp)⟩

/-- The value at the nodes that the new pattern leads to. -/
theorem Valued.mark {g : Graph K L V} {entries : List (List (Slot K L) × V)}
    {p : List (Slot K L)} {nodes : List Nat} (h : Valued g entries)
    (hmerged : Merged g (p :: entries.map Prod.fst)) (hnodes : Level g p nodes) (v : V) :
    Valued (g.mark nodes v) (entries ++ [(p, v)]) := by
  intro path n hn
  change g.reach path = some n at hn
  obtain ⟨hsome, hnone⟩ := h path n hn
  have hmatches : n ∈ nodes ↔ Matches p path := by
    constructor
    · intro hmem
      obtain ⟨path', ⟨hlength', hpath'⟩, hreach'⟩ := (hnodes n).mp hmem
      obtain ⟨hlength, -, hall⟩ := hmerged.shared path' path n hreach' hn
      exact ⟨hlength.symm.trans hlength', hall p List.mem_cons_self hpath'⟩
    · exact fun hpath => (hnodes n).mpr ⟨path, hpath, hn⟩
  by_cases hmem : n ∈ nodes
  · have hvalue : (g.mark nodes v).value n = some v := if_pos hmem
    rw [hvalue]
    refine ⟨fun w hw => ?_, fun hfalse => absurd hfalse (Option.some_ne_none v)⟩
    exact ⟨(p, v), List.mem_append_right _ List.mem_cons_self, hmatches.mp hmem,
      Option.some.inj hw⟩
  · have hvalue : (g.mark nodes v).value n = g.value n := if_neg hmem
    rw [hvalue]
    constructor
    · intro w hw
      obtain ⟨entry, hentry, hall⟩ := hsome w hw
      exact ⟨entry, List.mem_append_left _ hentry, hall⟩
    · intro hw entry hentry
      rcases List.mem_append.mp hentry with hold | hnew
      · exact hnone hw entry hold
      · rw [List.mem_singleton.mp hnew]
        exact fun hpath => hmem (hmatches.mpr hpath)

section AddPattern

variable [DecidableEq K] {g : Graph K L V} {entries : List (List (Slot K L) × V)}

/-- All the slots of a pattern. -/
theorem Merged.linkSlots {p slots : List (Slot K L)} {nodes : List Nat}
    (h : Merged g (p :: entries.map Prod.fst)) (hvalues : Valued g entries)
    (hnodes : Level g p nodes) (hne : nodes ≠ []) (hkeys : ∀ slot ∈ slots, slot.keys ≠ [])
    (hcompatible : ∀ entry ∈ entries, Compatible (p ++ slots) entry.1) :
    Merged (g.linkSlots nodes slots).1 ((p ++ slots) :: entries.map Prod.fst) ∧
      Valued (g.linkSlots nodes slots).1 entries ∧
      Level (g.linkSlots nodes slots).1 (p ++ slots) (g.linkSlots nodes slots).2 := by
  induction slots generalizing g p nodes with
  | nil =>
      rw [List.append_nil]
      exact ⟨h, hvalues, hnodes⟩
  | cons slot slots ih =>
      obtain ⟨hslot, hrest⟩ := List.forall_mem_cons.mp hkeys
      have hempty : Merged g ((p ++ [⟨slot.label, []⟩]) :: entries.map Prod.fst) := by
        refine h.congr (fun path => (begins_no_key p slot.label path).symm) ?_
        intro i old new hold hnew
        have hlt := (List.getElem?_eq_some_iff.mp hold).1
        rw [List.getElem?_append_left hlt] at hnew
        rw [Option.some.inj (hold.symm.trans hnew)]
      have hstart : Linking g entries p nodes slot.label [] [] := by
        refine { merged := hempty, parents := hnodes, children := ?_, values := hvalues }
        intro n
        refine iff_of_false List.not_mem_nil ?_
        rintro ⟨path, ⟨hlength, hpath⟩, -⟩
        have hle := ((begins_no_key p slot.label path).mp hpath).length_le
        simp only [List.length_append, List.length_singleton] at hlength
        omega
      have hlinked : Linking (Graph.linkKeys nodes slot.label (g, []) slot.keys).1 entries p nodes
          slot.label slot.keys (Graph.linkKeys nodes slot.label (g, []) slot.keys).2 :=
        hstart.linkKeys hne hcompatible
      have hchildren : (Graph.linkKeys nodes slot.label (g, []) slot.keys).2 ≠ [] := by
        obtain ⟨q, hq⟩ := List.exists_mem_of_ne_nil nodes hne
        obtain ⟨path, hpath, -⟩ := (hnodes q).mp hq
        obtain ⟨key, hkey⟩ := List.exists_mem_of_ne_nil slot.keys hslot
        have hbegins : Begins (p ++ [slot]) (path ++ [key]) := by
          refine (begins_concat _ path key).mpr ⟨hpath.2.append _, slot, ?_, hkey⟩
          rw [hpath.1, List.getElem?_concat_length]
        obtain ⟨n, hn⟩ := hlinked.merged.reach_of_begins List.mem_cons_self hbegins
        have hmem := (hlinked.children n).mpr ⟨_, ⟨by simp [hpath.1], hbegins⟩, hn⟩
        exact List.ne_nil_of_mem hmem
      have happend : p ++ slot :: slots = (p ++ [slot]) ++ slots := by simp
      rw [happend] at hcompatible ⊢
      exact ih hlinked.merged hlinked.values hlinked.children hchildren hrest hcompatible

/-- A pattern that is compatible with the ones there joins them. -/
theorem Represents.addPattern (h : Represents g entries) {p : List (Slot K L)} (v : V)
    (hkeys : ∀ slot ∈ p, slot.keys ≠ []) (hcompatible : ∀ entry ∈ entries, Compatible p entry.1) :
    Represents (g.addPattern p v) (entries ++ [(p, v)]) := by
  have hroot : Level g ([] : List (Slot K L)) [0] := by
    intro n
    rw [List.mem_singleton]
    constructor
    · rintro rfl
      exact ⟨[], ⟨rfl, begins_nil _⟩, rfl⟩
    · rintro ⟨path, ⟨hlength, -⟩, hreach⟩
      obtain rfl := List.length_eq_zero_iff.mp hlength
      exact (Option.some.inj hreach).symm
  obtain ⟨hmerged, hvalues, hnodes⟩ :=
    h.merged.cons_nil.linkSlots h.values hroot (List.cons_ne_nil _ _) hkeys hcompatible
  rw [List.nil_append] at hmerged hnodes
  refine ⟨?_, hvalues.mark hmerged hnodes v⟩
  have hsame : Merged (g.addPattern p v) (p :: entries.map Prod.fst) :=
    { rooted := hmerged.rooted, bounded := hmerged.bounded, isolated := hmerged.isolated,
      reached := hmerged.reached, labels := hmerged.labels, shared := hmerged.shared,
      merged := hmerged.merged }
  refine hsame.of_mem_iff fun q => ?_
  simp [or_comm]

end AddPattern

end PatternGraph
