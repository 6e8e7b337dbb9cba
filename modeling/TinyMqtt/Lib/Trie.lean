import Mathlib.Data.List.Infix
import Mathlib.Data.List.Nodup
import Mathlib.Tactic

/-!
Trees whose edges are labelled with keys, with a value in every node. A node is
named by the path of keys that leads to it from the root. The operations are
described by what they do to `valueAt`, the value found at the end of a path,
which determines everything but the order of the children.
-/

mutual

inductive Trie (κ α : Type) where
  | node (value : α) (children : Forest κ α)

inductive Forest (κ α : Type) where
  | nil
  | cons (key : κ) (child : Trie κ α) (rest : Forest κ α)

end

namespace Forest

variable {κ α β : Type} [DecidableEq κ]

def find? : Forest κ α → κ → Option (Trie κ α)
  | .nil, _ => none
  | .cons key child rest, k => if key = k then some child else rest.find? k

/-- Replaces the child of a key or adds a new one behind the others. -/
def put : Forest κ α → κ → Trie κ α → Forest κ α
  | .nil, k, new => .cons k new .nil
  | .cons key child rest, k, new =>
      if key = k then .cons key new rest else .cons key child (rest.put k new)

def erase : Forest κ α → κ → Forest κ α
  | .nil, _ => .nil
  | .cons key child rest, k => if key = k then rest.erase k else .cons key child (rest.erase k)

def isEmpty : Forest κ α → Bool
  | .nil => true
  | .cons _ _ _ => false

def keys : Forest κ α → List κ
  | .nil => []
  | .cons key _ rest => key :: rest.keys

def collect (f : κ → Trie κ α → List β) : Forest κ α → List β
  | .nil => []
  | .cons key child rest => f key child ++ rest.collect f

theorem find?_put (forest : Forest κ α) (k k' : κ) (new : Trie κ α) :
    (forest.put k new).find? k' = if k = k' then some new else forest.find? k' := by
  match forest with
  | .nil => simp [put, find?]
  | .cons key child rest =>
      by_cases hkey : key = k
      · by_cases hsame : k = k' <;> simp [put, find?, hkey, hsame]
      · by_cases hsame : key = k'
        · subst hsame
          simp [put, find?, hkey, Ne.symm hkey]
        · simp [put, find?, hkey, hsame, find?_put rest k k' new]

theorem put_put (forest : Forest κ α) (k : κ) (first second : Trie κ α) :
    (forest.put k first).put k second = forest.put k second := by
  match forest with
  | .nil => simp [put]
  | .cons key child rest =>
      by_cases hkey : key = k
      · simp [put, hkey]
      · simp [put, hkey, put_put rest k first second]

theorem find?_erase (forest : Forest κ α) (k k' : κ) :
    (forest.erase k).find? k' = if k = k' then none else forest.find? k' := by
  match forest with
  | .nil => simp [erase, find?]
  | .cons key child rest =>
      by_cases hkey : key = k
      · subst hkey
        by_cases hsame : key = k' <;> simp [erase, find?, hsame, find?_erase rest]
      · by_cases hsame : key = k'
        · subst hsame
          simp [erase, find?, hkey, Ne.symm hkey]
        · simp [erase, find?, hkey, hsame, find?_erase rest k k']

theorem sizeOf_find? {forest : Forest κ α} {k : κ} {child : Trie κ α}
    (hfind : forest.find? k = some child) : sizeOf child < sizeOf forest := by
  match forest with
  | .nil => simp [find?] at hfind
  | .cons key other rest =>
      by_cases hkey : key = k
      · obtain rfl : other = child := by simpa [find?, hkey] using hfind
        simp only [Forest.cons.sizeOf_spec]
        omega
      · have hrest : rest.find? k = some child := by simpa [find?, hkey] using hfind
        have hlt := sizeOf_find? hrest
        simp only [Forest.cons.sizeOf_spec]
        omega

theorem put_find?_self {forest : Forest κ α} {k : κ} {child : Trie κ α}
    (hfind : forest.find? k = some child) : forest.put k child = forest := by
  match forest with
  | .nil => simp [find?] at hfind
  | .cons key other rest =>
      by_cases hkey : key = k
      · obtain rfl : other = child := by simpa [find?, hkey] using hfind
        simp [put, hkey]
      · have hrest : rest.find? k = some child := by simpa [find?, hkey] using hfind
        simp [put, hkey, put_find?_self hrest]

theorem isEmpty_iff (forest : Forest κ α) :
    forest.isEmpty = true ↔ ∀ k, forest.find? k = none := by
  cases forest with
  | nil => simp [isEmpty, find?]
  | cons key child rest =>
      simp only [isEmpty, Bool.false_eq_true, false_iff, not_forall]
      exact ⟨key, by simp [find?]⟩

theorem mem_keys_iff (forest : Forest κ α) (k : κ) :
    k ∈ forest.keys ↔ (forest.find? k).isSome = true := by
  match forest with
  | .nil => simp [keys, find?]
  | .cons key child rest =>
      by_cases hkey : key = k
      · simp [keys, find?, hkey]
      · simp [keys, find?, hkey, Ne.symm hkey, mem_keys_iff rest k]

theorem keys_put (forest : Forest κ α) (k : κ) (new : Trie κ α) :
    (forest.put k new).keys = if k ∈ forest.keys then forest.keys else forest.keys ++ [k] := by
  match forest with
  | .nil => simp [put, keys]
  | .cons key child rest =>
      by_cases hkey : key = k
      · simp [put, keys, hkey]
      · by_cases hmem : k ∈ rest.keys <;>
          simp [put, keys, hkey, Ne.symm hkey, keys_put rest k new, hmem]

theorem nodup_keys_put {forest : Forest κ α} (hkeys : forest.keys.Nodup) (k : κ)
    (new : Trie κ α) : (forest.put k new).keys.Nodup := by
  rw [keys_put]
  split
  · exact hkeys
  · rename_i hnew
    apply hkeys.append (List.nodup_singleton k)
    intro key hkey hk
    rw [List.mem_singleton.mp hk] at hkey
    exact hnew hkey

theorem keys_erase (forest : Forest κ α) (k : κ) :
    (forest.erase k).keys = forest.keys.filter (· ≠ k) := by
  match forest with
  | .nil => rfl
  | .cons key child rest =>
      by_cases hkey : key = k <;> simp [erase, keys, hkey, keys_erase rest k]

/-- A child that gives the results of the one it replaces, or none if it is new. -/
theorem collect_put {forest : Forest κ α} {k : κ} {new : Trie κ α} {f : κ → Trie κ α → List β}
    (hsame : f k new = (forest.find? k).elim [] (f k)) :
    (forest.put k new).collect f = forest.collect f := by
  match forest with
  | .nil => simpa [put, collect, find?] using hsame
  | .cons key child rest =>
      by_cases hkey : key = k
      · subst hkey
        have hchild : f key new = f key child := by simpa [find?] using hsame
        rw [put, if_pos rfl, collect, collect, hchild]
      · rw [put, if_neg hkey, collect, collect]
        congr 1
        apply collect_put
        simpa [find?, hkey] using hsame

/-- With distinct keys, the children are those that can be found. -/
theorem mem_collect {forest : Forest κ α} (hkeys : forest.keys.Nodup)
    (f : κ → Trie κ α → List β) (b : β) :
    b ∈ forest.collect f ↔ ∃ k child, forest.find? k = some child ∧ b ∈ f k child := by
  match forest with
  | .nil => simp [collect, find?]
  | .cons key child rest =>
      obtain ⟨hkey, hrest⟩ := List.nodup_cons.mp hkeys
      rw [collect, List.mem_append, mem_collect hrest f b]
      constructor
      · rintro (hfirst | ⟨k, other, hfind, hmem⟩)
        · exact ⟨key, child, by simp [find?], hfirst⟩
        · have hne : key ≠ k := by
            rintro rfl
            exact hkey ((mem_keys_iff rest key).mpr (by simp [hfind]))
          exact ⟨k, other, by simp [find?, hne, hfind], hmem⟩
      · rintro ⟨k, other, hfind, hmem⟩
        by_cases hsame : key = k
        · obtain rfl : child = other := by simpa [find?, hsame] using hfind
          exact .inl (hsame ▸ hmem)
        · exact .inr ⟨k, other, by simpa [find?, hsame] using hfind, hmem⟩

/-- The results for children with distinct keys do not repeat when no child
repeats one and no two children share one. -/
theorem nodup_collect {forest : Forest κ α} (hkeys : forest.keys.Nodup)
    {f : κ → Trie κ α → List β}
    (hchild : ∀ k child, forest.find? k = some child → (f k child).Nodup)
    (hshared : ∀ b k child k' child', forest.find? k = some child → forest.find? k' = some child' →
      b ∈ f k child → b ∈ f k' child' → k = k') : (forest.collect f).Nodup := by
  match forest with
  | .nil => exact List.nodup_nil
  | .cons key child rest =>
      obtain ⟨hkey, hrest⟩ := List.nodup_cons.mp hkeys
      have hlift : ∀ k other, rest.find? k = some other →
          key ≠ k ∧ (Forest.cons key child rest).find? k = some other := by
        intro k other hfind
        have hne : key ≠ k := by
          rintro rfl
          exact hkey ((mem_keys_iff rest key).mpr (by simp [hfind]))
        exact ⟨hne, by simp [find?, hne, hfind]⟩
      have hfirst : (Forest.cons key child rest).find? key = some child := by simp [find?]
      rw [collect, List.nodup_append']
      refine ⟨hchild key child hfirst, ?_, ?_⟩
      · apply nodup_collect hrest
        · intro k other hfind
          exact hchild k other (hlift k other hfind).2
        · intro b k other k' other' hfind hfind'
          exact hshared b k other k' other' (hlift k other hfind).2 (hlift k' other' hfind').2
      · intro b hb hb'
        obtain ⟨k, other, hfind, hmem⟩ := (mem_collect hrest f b).mp hb'
        obtain ⟨hne, hfind'⟩ := hlift k other hfind
        exact hne (hshared b key child k other hfirst hfind' hb hmem)

end Forest

namespace Trie

variable {κ α β : Type}

def value : Trie κ α → α
  | .node value _ => value

def children : Trie κ α → Forest κ α
  | .node _ children => children

def leaf (value : α) : Trie κ α := .node value .nil

@[simp] theorem value_node (v : α) (cs : Forest κ α) : (Trie.node v cs).value = v := rfl

@[simp] theorem children_node (v : α) (cs : Forest κ α) : (Trie.node v cs).children = cs := rfl

@[simp] theorem value_leaf (v : α) : (leaf v : Trie κ α).value = v := rfl

@[simp] theorem children_leaf (v : α) : (leaf v : Trie κ α).children = .nil := rfl

variable [DecidableEq κ]

theorem sizeOf_find?_children {t child : Trie κ α} {k : κ}
    (hchild : t.children.find? k = some child) : sizeOf child < sizeOf t := by
  cases t with
  | node v cs =>
      have hlt := Forest.sizeOf_find? hchild
      simp only [Trie.node.sizeOf_spec, children_node] at hlt ⊢
      omega

def find? : Trie κ α → List κ → Option (Trie κ α)
  | t, [] => some t
  | t, k :: path => (t.children.find? k).bind fun child => child.find? path

/-- Creates the missing nodes of a path, each with the value `new`. -/
def grow (new : α) : Trie κ α → List κ → Trie κ α
  | t, [] => t
  | t, k :: path =>
      .node t.value (t.children.put k (grow new ((t.children.find? k).getD (leaf new)) path))

def modify (f : Trie κ α → Trie κ α) : Trie κ α → List κ → Trie κ α
  | t, [] => f t
  | t, k :: path =>
      match t.children.find? k with
      | none => t
      | some child => .node t.value (t.children.put k (child.modify f path))

def modifyValue (f : α → α) (t : Trie κ α) (path : List κ) : Trie κ α :=
  t.modify (fun t => .node (f t.value) t.children) path

def eraseChild (t : Trie κ α) (path : List κ) (k : κ) : Trie κ α :=
  t.modify (fun t => .node t.value (t.children.erase k)) path

def valueAt (t : Trie κ α) (path : List κ) : Option α := (t.find? path).map value

@[simp] theorem find?_nil (t : Trie κ α) : t.find? [] = some t := by
  cases t
  rfl

theorem find?_cons (t : Trie κ α) (k : κ) (path : List κ) :
    t.find? (k :: path) = (t.children.find? k).bind fun child => child.find? path := by
  cases t
  rfl

theorem find?_append (t : Trie κ α) (first second : List κ) :
    t.find? (first ++ second) = (t.find? first).bind fun t => t.find? second := by
  induction first generalizing t with
  | nil => simp
  | cons k first ih =>
      rw [List.cons_append, find?_cons, find?_cons]
      cases t.children.find? k with
      | none => rfl
      | some child => exact ih child

@[simp] theorem valueAt_nil (t : Trie κ α) : t.valueAt [] = some t.value := by
  simp [valueAt]

theorem valueAt_cons (t : Trie κ α) (k : κ) (path : List κ) :
    t.valueAt (k :: path) = (t.children.find? k).bind fun child => child.valueAt path := by
  rw [valueAt, find?_cons, Option.map_bind]
  rfl

theorem valueAt_append (t : Trie κ α) (first second : List κ) :
    t.valueAt (first ++ second) = (t.find? first).bind fun t => t.valueAt second := by
  rw [valueAt, find?_append, Option.map_bind]
  rfl

theorem exists_find?_of_valueAt {t : Trie κ α} {path : List κ} (hexists : t.valueAt path ≠ none) :
    ∃ node, t.find? path = some node := by
  rw [valueAt, Ne, Option.map_eq_none_iff] at hexists
  exact Option.ne_none_iff_exists'.mp hexists

/-- A path that exists has all its beginnings. -/
theorem valueAt_prefix {t : Trie κ α} {first path : List κ} (hstarts : first <+: path)
    (hpath : t.valueAt path ≠ none) : t.valueAt first ≠ none := by
  obtain ⟨second, rfl⟩ := hstarts
  intro hnone
  apply hpath
  rw [valueAt, Option.map_eq_none_iff] at hnone
  rw [valueAt_append, hnone]
  rfl

theorem leaf_valueAt (v : α) (path : List κ) :
    (leaf v : Trie κ α).valueAt path = if path = [] then some v else none := by
  cases path with
  | nil => simp [leaf]
  | cons k path => simp [valueAt_cons, leaf, Forest.find?]

/-- Growing a path adds its missing nodes and changes no value. -/
theorem valueAt_grow (new : α) (t : Trie κ α) (path p : List κ) :
    (t.grow new path).valueAt p
      = if p <+: path then some ((t.valueAt p).getD new) else t.valueAt p := by
  induction path generalizing t p with
  | nil =>
      cases p with
      | nil => cases t; simp [grow]
      | cons k p => cases t; simp [grow]
  | cons k path ih =>
      cases p with
      | nil => cases t; simp [grow]
      | cons k' p =>
          obtain ⟨v, cs⟩ := t
          rw [grow, valueAt_cons, valueAt_cons, children_node, children_node, Forest.find?_put]
          by_cases hkey : k = k'
          · subst hkey
            rw [if_pos rfl, Option.bind_some, ih]
            cases hchild : cs.find? k with
            | some child => simp
            | none =>
                by_cases hstarts : p <+: path
                · by_cases hnil : p = [] <;> simp [leaf_valueAt, hstarts, hnil]
                · have hnil : p ≠ [] := by
                    rintro rfl
                    exact hstarts List.nil_prefix
                  simp [leaf_valueAt, hstarts, hnil]
          · simp [hkey, Ne.symm hkey]

/-- A path that is there is not grown. -/
theorem grow_of_valueAt (new : α) {t : Trie κ α} {path : List κ} (h : t.valueAt path ≠ none) :
    t.grow new path = t := by
  induction path generalizing t with
  | nil => cases t; rfl
  | cons k path ih =>
      obtain ⟨v, cs⟩ := t
      rw [valueAt_cons, children_node] at h
      cases hchild : cs.find? k with
      | none => simp [hchild] at h
      | some child =>
          rw [hchild, Option.bind_some] at h
          rw [grow, children_node, value_node, hchild, Option.getD_some, ih h,
            Forest.put_find?_self hchild]

/-- A path grows in one step or in several. -/
theorem grow_grow_append (new : α) (t : Trie κ α) (first second : List κ) :
    (t.grow new first).grow new (first ++ second) = t.grow new (first ++ second) := by
  induction first generalizing t with
  | nil => cases t; rfl
  | cons k first ih =>
      rw [List.cons_append, grow, grow, grow, children_node, value_node, Forest.find?_put,
        if_pos rfl, Option.getD_some, ih, Forest.put_put]

theorem modify_cons_none {t : Trie κ α} {k : κ} (hchild : t.children.find? k = none)
    (f : Trie κ α → Trie κ α) (path : List κ) : t.modify f (k :: path) = t := by
  cases t
  simp only [modify, hchild]

theorem modify_cons_some {t child : Trie κ α} {k : κ} (hchild : t.children.find? k = some child)
    (f : Trie κ α → Trie κ α) (path : List κ) :
    t.modify f (k :: path) = .node t.value (t.children.put k (child.modify f path)) := by
  cases t
  simp only [modify, hchild]

/-- A child that is put where it is missing. -/
theorem modify_put_leaf (new : α) {t node : Trie κ α} {path : List κ} {k : κ}
    (hfind : t.find? path = some node) (hmissing : node.children.find? k = none) :
    t.modify (fun t => .node t.value (t.children.put k (leaf new))) path
      = t.grow new (path ++ [k]) := by
  induction path generalizing t with
  | nil =>
      rw [find?_nil] at hfind
      obtain rfl := Option.some.inj hfind
      cases t
      rw [children_node] at hmissing
      simp [modify, grow, hmissing, leaf]
  | cons k' path ih =>
      rw [find?_cons] at hfind
      obtain ⟨child, hchild, hpath⟩ := Option.bind_eq_some_iff.mp hfind
      rw [modify_cons_some hchild, ih hpath, List.cons_append, grow, hchild, Option.getD_some]

/-- A path that is grown and changed at its end goes on in one child. -/
theorem modifyValue_grow_cons (f : α → α) (new : α) (t : Trie κ α) (k : κ) (path : List κ) :
    (t.grow new (k :: path)).modifyValue f (k :: path)
      = .node t.value (t.children.put k
          ((((t.children.find? k).getD (leaf new)).grow new path).modifyValue f path)) := by
  have hchild : (t.grow new (k :: path)).children.find? k
      = some (((t.children.find? k).getD (leaf new)).grow new path) := by
    rw [grow, children_node, Forest.find?_put, if_pos rfl]
  rw [modifyValue, modify_cons_some hchild, grow, children_node, Forest.put_put]
  rfl

theorem valueAt_modifyValue (f : α → α) (t : Trie κ α) (path p : List κ) :
    (t.modifyValue f path).valueAt p
      = if p = path then (t.valueAt p).map f else t.valueAt p := by
  unfold modifyValue
  induction path generalizing t p with
  | nil =>
      cases p with
      | nil => cases t; simp [modify]
      | cons k p => cases t; simp [modify, valueAt_cons]
  | cons k path ih =>
      cases hchild : t.children.find? k with
      | none =>
          rw [modify_cons_none hchild]
          by_cases hp : p = k :: path
          · subst hp
            simp [valueAt_cons, hchild]
          · simp [hp]
      | some child =>
          rw [modify_cons_some hchild]
          cases p with
          | nil => simp
          | cons k' p =>
              rw [valueAt_cons, valueAt_cons, children_node, Forest.find?_put]
              by_cases hkey : k = k'
              · subst hkey
                simp [hchild, ih]
              · simp [hkey, Ne.symm hkey]

/-- Erasing a child removes the paths that lead through it. -/
theorem valueAt_eraseChild (t : Trie κ α) (path : List κ) (k : κ) (p : List κ) :
    (t.eraseChild path k).valueAt p = if path ++ [k] <+: p then none else t.valueAt p := by
  unfold eraseChild
  induction path generalizing t p with
  | nil =>
      cases p with
      | nil => cases t; simp [modify]
      | cons k' p =>
          cases t
          simp only [modify, valueAt_cons, children_node, Forest.find?_erase, List.nil_append]
          by_cases hkey : k = k' <;> simp [hkey]
  | cons k₀ path ih =>
      cases hchild : t.children.find? k₀ with
      | none =>
          rw [modify_cons_none hchild]
          by_cases hp : k₀ :: path ++ [k] <+: p
          · obtain ⟨rest, rfl⟩ := hp
            simp [valueAt_cons, hchild]
          · rw [if_neg hp]
      | some child =>
          rw [modify_cons_some hchild]
          cases p with
          | nil => simp
          | cons k' p =>
              rw [valueAt_cons, valueAt_cons, children_node, Forest.find?_put]
              by_cases hkey : k₀ = k'
              · subst hkey
                simp [hchild, ih]
              · simp [hkey]

/-- Induction from the children of a node to the node. -/
theorem induction_on_children {P : Trie κ α → Prop}
    (h : ∀ t, (∀ k child, t.children.find? k = some child → P child) → P t) (t : Trie κ α) :
    P t := by
  apply h
  intro k child hchild
  have hsize := sizeOf_find?_children hchild
  exact induction_on_children h child
termination_by sizeOf t

/-- In a tree in which every node has the property or a child, some node has
the property. -/
theorem exists_valueAt_of_descends {P : α → Prop} (t : Trie κ α)
    (h : ∀ path v, t.valueAt path = some v → P v ∨ ∃ k, t.valueAt (path ++ [k]) ≠ none) :
    ∃ path v, t.valueAt path = some v ∧ P v := by
  induction t using induction_on_children with
  | h t ih =>
      rcases h [] t.value (valueAt_nil t) with hvalue | ⟨k, hk⟩
      · exact ⟨[], t.value, valueAt_nil t, hvalue⟩
      · rw [List.nil_append, valueAt_cons] at hk
        obtain ⟨child, hchild⟩ : ∃ child, t.children.find? k = some child := by
          cases hfind : t.children.find? k with
          | none => simp [hfind] at hk
          | some child => exact ⟨child, rfl⟩
        have hstep : ∀ path, t.valueAt (k :: path) = child.valueAt path := by
          intro path
          rw [valueAt_cons, hchild, Option.bind_some]
        have hbelow : ∀ path v, child.valueAt path = some v →
            P v ∨ ∃ k, child.valueAt (path ++ [k]) ≠ none := by
          intro path v hv
          rw [← hstep] at hv
          refine (h (k :: path) v hv).imp_right ?_
          rintro ⟨k', hk'⟩
          exact ⟨k', by rwa [← hstep]⟩
        obtain ⟨path, v, hv, hP⟩ := ih k child hchild hbelow
        exact ⟨k :: path, v, by rw [hstep, hv], hP⟩

/-- A node has no children just when no path goes on from it. -/
theorem children_isEmpty_iff {t : Trie κ α} {path : List κ} {t' : Trie κ α}
    (hfind : t.find? path = some t') :
    t'.children.isEmpty = true ↔ ∀ k, t.valueAt (path ++ [k]) = none := by
  rw [Forest.isEmpty_iff]
  refine forall_congr' fun k => ?_
  rw [valueAt_append, hfind, Option.bind_some, valueAt_cons]
  cases t'.children.find? k with
  | none => simp
  | some child => simp

/-! ### Distinct keys -/

def Distinct (t : Trie κ α) : Prop :=
  ∀ path t', t.find? path = some t' → t'.children.keys.Nodup

theorem distinct_iff (t : Trie κ α) :
    t.Distinct ↔ t.children.keys.Nodup ∧
      ∀ k child, t.children.find? k = some child → child.Distinct := by
  constructor
  · intro h
    refine ⟨h [] t (find?_nil t), ?_⟩
    intro k child hchild path t' hfind
    apply h (k :: path) t'
    rw [find?_cons, hchild]
    exact hfind
  · rintro ⟨hkeys, hchildren⟩ path t' hfind
    cases path with
    | nil =>
        rw [find?_nil] at hfind
        obtain rfl := Option.some.inj hfind
        exact hkeys
    | cons k path =>
        rw [find?_cons] at hfind
        obtain ⟨child, hchild, hpath⟩ := Option.bind_eq_some_iff.mp hfind
        exact hchildren k child hchild path t' hpath

theorem distinct_leaf (v : α) : (leaf v : Trie κ α).Distinct := by
  rw [distinct_iff]
  simp [leaf, Forest.keys, Forest.find?]

theorem Distinct.put {t child : Trie κ α} (h : t.Distinct) (hchild : child.Distinct) (v : α)
    (k : κ) : (Trie.node v (t.children.put k child)).Distinct := by
  rw [distinct_iff] at h ⊢
  refine ⟨Forest.nodup_keys_put h.1 k child, ?_⟩
  intro k' child' hfind
  rw [children_node, Forest.find?_put] at hfind
  split at hfind
  · obtain rfl := Option.some.inj hfind
    exact hchild
  · exact h.2 k' child' hfind

theorem Distinct.erase {t : Trie κ α} (h : t.Distinct) (v : α) (k : κ) :
    (Trie.node v (t.children.erase k)).Distinct := by
  rw [distinct_iff] at h ⊢
  constructor
  · rw [children_node, Forest.keys_erase]
    exact h.1.filter _
  · intro k' child' hfind
    rw [children_node, Forest.find?_erase] at hfind
    split at hfind
    · cases hfind
    · exact h.2 k' child' hfind

theorem Distinct.childOr {t : Trie κ α} (h : t.Distinct) (new : α) (k : κ) :
    ((t.children.find? k).getD (leaf new)).Distinct := by
  cases hfind : t.children.find? k with
  | none => exact distinct_leaf new
  | some child => exact ((distinct_iff t).mp h).2 k child hfind

theorem Distinct.grow {t : Trie κ α} (h : t.Distinct) (new : α) (path : List κ) :
    (t.grow new path).Distinct := by
  induction path generalizing t with
  | nil => cases t; exact h
  | cons k path ih =>
      cases t
      exact h.put (ih (h.childOr new k)) _ k

theorem Distinct.modify {f : Trie κ α → Trie κ α} (hf : ∀ t : Trie κ α, t.Distinct → (f t).Distinct)
    {t : Trie κ α} (h : t.Distinct) (path : List κ) : (t.modify f path).Distinct := by
  induction path generalizing t with
  | nil => cases t; exact hf _ h
  | cons k path ih =>
      cases hchild : t.children.find? k with
      | none =>
          rw [modify_cons_none hchild]
          exact h
      | some child =>
          rw [modify_cons_some hchild]
          exact h.put (ih (((distinct_iff t).mp h).2 k child hchild)) _ k

theorem Distinct.modifyValue {t : Trie κ α} (h : t.Distinct) (f : α → α) (path : List κ) :
    (t.modifyValue f path).Distinct := by
  apply Distinct.modify _ h
  intro t ht
  rw [distinct_iff] at ht ⊢
  exact ht

theorem Distinct.eraseChild {t : Trie κ α} (h : t.Distinct) (path : List κ) (k : κ) :
    (t.eraseChild path k).Distinct := by
  apply Distinct.modify _ h
  intro t ht
  exact ht.erase _ k

end Trie

/-! ### A property of all values -/

mutual

/-- Every value of the tree has the property, also one that is hidden behind
another child with the same key. -/
def Trie.All {κ α : Type} (P : α → Prop) : Trie κ α → Prop
  | .node value children => P value ∧ children.All P

def Forest.All {κ α : Type} (P : α → Prop) : Forest κ α → Prop
  | .nil => True
  | .cons _ child rest => child.All P ∧ rest.All P

end

namespace Forest

variable {κ α β : Type} {P : α → Prop}

theorem All.mem_collect {forest : Forest κ α} (h : forest.All P) {f : κ → Trie κ α → List β}
    {b : β} (hb : b ∈ forest.collect f) : ∃ key child, child.All P ∧ b ∈ f key child := by
  match forest with
  | .nil => cases hb
  | .cons key child rest =>
      obtain ⟨hchild, hrest⟩ := h
      rcases List.mem_append.mp hb with hfirst | hlater
      · exact ⟨key, child, hchild, hfirst⟩
      · exact All.mem_collect hrest hlater

variable [DecidableEq κ]

theorem All.of_find? {forest : Forest κ α} (h : forest.All P) {k : κ} {child : Trie κ α}
    (hfind : forest.find? k = some child) : child.All P := by
  match forest with
  | .nil => cases hfind
  | .cons key first rest =>
      obtain ⟨hfirst, hrest⟩ := h
      rw [find?] at hfind
      split at hfind
      · obtain rfl := Option.some.inj hfind
        exact hfirst
      · exact All.of_find? hrest hfind

theorem All.put {forest : Forest κ α} (h : forest.All P) (k : κ) {child : Trie κ α}
    (hchild : child.All P) : (forest.put k child).All P := by
  match forest with
  | .nil => exact ⟨hchild, trivial⟩
  | .cons key first rest =>
      obtain ⟨hfirst, hrest⟩ := h
      rw [Forest.put]
      split
      · exact ⟨hchild, hrest⟩
      · exact ⟨hfirst, All.put hrest k hchild⟩

theorem All.erase {forest : Forest κ α} (h : forest.All P) (k : κ) : (forest.erase k).All P := by
  match forest with
  | .nil => trivial
  | .cons key first rest =>
      obtain ⟨hfirst, hrest⟩ := h
      rw [Forest.erase]
      split
      · exact All.erase hrest k
      · exact ⟨hfirst, All.erase hrest k⟩

end Forest

namespace Trie

variable {κ α : Type} {P : α → Prop}

theorem all_iff (t : Trie κ α) : t.All P ↔ P t.value ∧ t.children.All P := by
  cases t
  exact Iff.rfl

theorem all_leaf {v : α} (hv : P v) : (leaf v : Trie κ α).All P := ⟨hv, trivial⟩

variable [DecidableEq κ]

theorem All.childOr {t : Trie κ α} (h : t.All P) {new : α} (hnew : P new) (k : κ) :
    ((t.children.find? k).getD (leaf new)).All P := by
  cases hfind : t.children.find? k with
  | none => exact all_leaf hnew
  | some child => exact ((all_iff t).mp h).2.of_find? hfind

theorem All.grow {t : Trie κ α} (h : t.All P) {new : α} (hnew : P new) (path : List κ) :
    (t.grow new path).All P := by
  induction path generalizing t with
  | nil => cases t; exact h
  | cons k path ih =>
      have hparts := (all_iff t).mp h
      cases t
      exact ⟨hparts.1, hparts.2.put k (ih (h.childOr hnew k))⟩

theorem All.modify {f : Trie κ α → Trie κ α} (hf : ∀ t : Trie κ α, t.All P → (f t).All P)
    {t : Trie κ α} (h : t.All P) (path : List κ) : (t.modify f path).All P := by
  induction path generalizing t with
  | nil => cases t; exact hf _ h
  | cons k path ih =>
      cases hchild : t.children.find? k with
      | none =>
          rw [modify_cons_none hchild]
          exact h
      | some child =>
          rw [modify_cons_some hchild]
          have hparts := (all_iff t).mp h
          exact ⟨hparts.1, hparts.2.put k (ih (hparts.2.of_find? hchild))⟩

theorem All.modifyValue {t : Trie κ α} (h : t.All P) {f : α → α} (hf : ∀ v, P v → P (f v))
    (path : List κ) : (t.modifyValue f path).All P := by
  apply All.modify _ h
  intro t ht
  have hparts := (all_iff t).mp ht
  exact ⟨hf t.value hparts.1, hparts.2⟩

theorem All.eraseChild {t : Trie κ α} (h : t.All P) (path : List κ) (k : κ) :
    (t.eraseChild path k).All P := by
  apply All.modify _ h
  intro t ht
  have hparts := (all_iff t).mp ht
  exact ⟨hparts.1, hparts.2.erase k⟩

end Trie
