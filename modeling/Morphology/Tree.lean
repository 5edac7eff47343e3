/-!
# Nested groups of tokens

Running text comes as tokens in groups, such as sentences in paragraphs, nested to any depth.

## Main definitions

* `Tree` — a leaf or a group of trees
* `Tree.leaves` — the leaves from left to right, with a list of trees still to be visited
* `Tree.flatten` — the leaves from left to right, by recursion
* `Tree.traverse` — the leaves changed from left to right, with a state passed along
* `Tree.Ref`, `Tree.leafRefs` — references to the leaves, found with a stack
* `Tree.update` — the leaves changed in place, through references to them
-/

namespace Morphology

universe u v w

/-- A leaf or a group. -/
inductive Tree (α : Type u)
  | leaf (x : α)
  | group (items : List (Tree α))
  deriving Repr, Inhabited

namespace Tree

variable {α : Type u} {β : Type v} {σ : Type w}

/-! ## Size -/

/-- The number of leaves and groups. -/
def size : Tree α → Nat
  | .leaf _ => 1
  | .group items => 1 + sizes items
where
  /-- The number of leaves and groups of several trees. -/
  sizes : List (Tree α) → Nat
    | [] => 0
    | t :: rest => t.size + sizes rest

private theorem sizes_append (ts us : List (Tree α)) :
    size.sizes (ts ++ us) = size.sizes ts + size.sizes us := by
  induction ts with
  | nil => simp [size.sizes]
  | cons t ts ih => simp [size.sizes, ih, Nat.add_assoc]

private theorem sizes_reverse (ts : List (Tree α)) : size.sizes ts.reverse = size.sizes ts := by
  induction ts with
  | nil => rfl
  | cons t ts ih => simp [sizes_append, size.sizes, ih, Nat.add_comm]

/-! ## Leaves -/

/-- The leaves of several trees, visited in order; the items of a group are visited in its
place. -/
def leavesOf : List (Tree α) → List α
  | [] => []
  | .leaf x :: rest => x :: leavesOf rest
  | .group items :: rest => leavesOf (items ++ rest)
termination_by ts => size.sizes ts
decreasing_by
  · simp [size.sizes, size]
  · simp only [size.sizes, size, sizes_append]; omega

/-- The leaves from left to right. -/
def leaves (t : Tree α) : List α :=
  leavesOf [t]

/-- The leaves from left to right, by recursion on the nesting. -/
def flatten : Tree α → List α
  | .leaf x => [x]
  | .group items => flattenAll items
where
  /-- The leaves of several trees. -/
  flattenAll : List (Tree α) → List α
    | [] => []
    | t :: rest => t.flatten ++ flattenAll rest

/-! ## Changes -/

/-- The tree with every leaf changed from left to right.  Each change is given the state that the
one before it left. -/
def traverse (f : σ → α → σ × β) (s : σ) : Tree α → σ × Tree β
  | .leaf x =>
    let (s, y) := f s x
    (s, .leaf y)
  | .group items =>
    let (s, items) := traverseAll f s items
    (s, .group items)
where
  /-- Several trees changed one after another. -/
  traverseAll (f : σ → α → σ × β) (s : σ) : List (Tree α) → σ × List (Tree β)
    | [] => (s, [])
    | t :: rest =>
      let (s, t) := traverse f s t
      let (s, rest) := traverseAll f s rest
      (s, t :: rest)

/-- The tree with every leaf changed. -/
def map (f : α → β) : Tree α → Tree β
  | .leaf x => .leaf (f x)
  | .group items => .group (mapAll items)
where
  /-- Several trees with every leaf changed. -/
  mapAll : List (Tree α) → List (Tree β)
    | [] => []
    | t :: rest => t.map f :: mapAll rest

/-! ## References -/

/-- A reference to a part of a tree: the numbers of the items to go into, group by group, and what
stands there. -/
structure Ref (τ : Type u) where
  place : List Nat
  value : τ
  deriving Repr, DecidableEq

/-- The references to the items of a group that stands at a place. -/
def itemRefs (place : List Nat) (items : List (Tree α)) : List (Ref (Tree α)) :=
  items.zipIdx.map fun (t, i) => ⟨place ++ [i], t⟩

/-- A traversal with a stack: the parts still to be visited, the next one last, and the leaves found
so far. -/
structure Walk (α : Type u) where
  stack : Array (Ref (Tree α))
  found : Array (Ref α)

namespace Walk

/-- A part is visited that has been taken from the stack: a leaf is found, and the items of a group
are put on the stack from the last to the first. -/
def visit (r : Ref (Tree α)) (w : Walk α) : Walk α :=
  match r.value with
  | .leaf x => { w with found := w.found.push ⟨r.place, x⟩ }
  | .group items => { w with stack := w.stack ++ (itemRefs r.place items).reverse }

/-- The next part is visited, if there is one. -/
def next? (w : Walk α) : Option (Walk α) :=
  w.stack.back?.map fun r => visit r { w with stack := w.stack.pop }

theorem exists_of_next? {w w' : Walk α} (h : w.next? = some w') :
    ∃ stack r, w.stack = stack.push r ∧ w' = visit r { w with stack } := by
  obtain ⟨r, hr, rfl⟩ := Option.map_eq_some_iff.1 h
  obtain ⟨stack, hstack⟩ := Array.back?_eq_some_iff.1 hr
  exact ⟨stack, r, hstack, by rw [hstack, Array.pop_push]⟩

theorem stack_eq_of_next?_eq_none {w : Walk α} (h : w.next? = none) : w.stack = #[] :=
  Array.back?_eq_none_iff.1 (Option.map_eq_none_iff.1 h)

/-- The number of leaves and groups still to be visited. -/
def size (w : Walk α) : Nat :=
  size.sizes (w.stack.toList.map Ref.value)

private theorem size_lt_of_next? {w w' : Walk α} (h : w.next? = some w') : w'.size < w.size := by
  obtain ⟨stack, ⟨place, t⟩, hstack, rfl⟩ := exists_of_next? h
  cases t with
  | leaf x => simp [visit, size, hstack, sizes_append, size.sizes, Tree.size]
  | group items =>
    have hitems : (itemRefs place items).map Ref.value = items := by
      simp [itemRefs, Function.comp_def]
    simp [visit, size, hstack, sizes_append, sizes_reverse, hitems, size.sizes, Tree.size]

/-- The leaves that are found until nothing is left to be visited. -/
def run (w : Walk α) : List (Ref α) :=
  match h : w.next? with
  | some w' =>
    have : w'.size < w.size := size_lt_of_next? h
    w'.run
  | none => w.found.toList
termination_by w.size

end Walk

/-- References to the leaves from left to right. -/
def leafRefs (t : Tree α) : List (Ref α) :=
  Walk.run { stack := #[⟨[], t⟩], found := #[] }

/-! ## Changes in place -/

/-- The leaf at a place. -/
def leafAt? : Tree α → List Nat → Option α
  | .leaf x, [] => some x
  | .group items, i :: place => items[i]?.bind (leafAt? · place)
  | _, _ => none

/-- The tree with another leaf at a place. -/
def setLeaf : Tree α → List Nat → α → Tree α
  | .leaf _, [], y => .leaf y
  | .group items, i :: place, y => .group (items.modify i (setLeaf · place y))
  | t, _, _ => t

/-- The leaf changed that a reference points to.  The change is given a state and leaves one. -/
def updateAt (f : σ → α → σ × α) : σ × Tree α → Ref α → σ × Tree α
  | (s, t), r =>
    match t.leafAt? r.place with
    | some x =>
      let (s, y) := f s x
      (s, t.setLeaf r.place y)
    | none => (s, t)

/-- The tree with its leaves changed in place, one reference after another. -/
def update (f : σ → α → σ × α) (s : σ) (t : Tree α) : σ × Tree α :=
  t.leafRefs.foldl (updateAt f) (s, t)

end Tree

end Morphology
