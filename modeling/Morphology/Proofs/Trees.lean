import Morphology.Tree

/-!
# Leaves visited one after another

A traversal keeps the nesting of a tree, and it changes the leaves as it would change them in a
list.

The leaves can be visited by recursion, with a list of trees still to be visited, or with a stack on
which the items of a group are put in reverse.  The three agree, and so do the changes that are made
by recursion and those that are made in place.  What a stack still has in store, from its top down,
is what the recursion has still to list; a visit moves a leaf from there to the end of those found.

## Main definitions

* `mapAccum` — the items of a list changed one after another, with a state passed along
* `Tree.refs` — the references to the leaves, by recursion
* `Tree.FindsLeaves` — what is found with a stack
* `Tree.IsRelabelling` — a tree with the nesting of another and leaves of its own

## Main statements

* `Tree.leaves_eq_flatten` — the leaves are the same, visited in place or group by group
* `Tree.map_traverse` — what every change of a leaf keeps is kept with the nesting
* `Tree.flatten_traverse` — the leaves of a changed tree
* `Tree.leafRefs_eq_refs` — a stack gives the references of the recursion
* `Tree.update_eq_traverse` — leaves changed in place are changed as in a traversal
-/

namespace Morphology

universe u v w x

variable {α : Type u} {β : Type v} {γ : Type x} {σ : Type w} {f : σ → α → σ × β}

/-- The items of a list changed from left to right.  Each change is given the state that the one
before it left. -/
def mapAccum (f : σ → α → σ × β) (s : σ) : List α → σ × List β
  | [] => (s, [])
  | x :: xs =>
    let (s, y) := f s x
    let (s, ys) := mapAccum f s xs
    (s, y :: ys)

theorem mapAccum_append (s : σ) (xs ys : List α) :
    mapAccum f s (xs ++ ys) =
      ((mapAccum f (mapAccum f s xs).1 ys).1,
        (mapAccum f s xs).2 ++ (mapAccum f (mapAccum f s xs).1 ys).2) := by
  induction xs generalizing s with
  | nil => rfl
  | cons x xs ih => simp only [List.cons_append, mapAccum, ih]

namespace Tree

/-! ## Leaves -/

theorem flattenAll_append (ts us : List (Tree α)) :
    flatten.flattenAll (ts ++ us) = flatten.flattenAll ts ++ flatten.flattenAll us := by
  induction ts with
  | nil => rfl
  | cons t ts ih =>
    rw [List.cons_append, flatten.flattenAll, flatten.flattenAll, ih, List.append_assoc]

/-- The leaves are the same if the items of a group are visited in its place. -/
theorem leaves_eq_flatten (t : Tree α) : t.leaves = t.flatten := by
  have hall (ts : List (Tree α)) : leavesOf ts = flatten.flattenAll ts := by
    fun_induction leavesOf ts with
    | case1 => rfl
    | case2 x rest ih => rw [ih]; rfl
    | case3 items rest ih => rw [ih, flattenAll_append]; rfl
  rw [leaves, hall, flatten.flattenAll, flatten.flattenAll, List.append_nil]

/-! ## Traversals -/

theorem map_map (g : β → γ) (k : α → β) : (t : Tree α) → (t.map k).map g = t.map (g ∘ k)
  | .leaf _ => rfl
  | .group items => congrArg group (all items)
where
  all : (ts : List (Tree α)) → map.mapAll g (map.mapAll k ts) = map.mapAll (g ∘ k) ts
    | [] => rfl
    | t :: rest => List.cons_eq_cons.2 ⟨map_map g k t, all rest⟩

/-- What every change of a leaf keeps is kept, and with it the nesting. -/
theorem map_traverse {g : β → γ} {k : α → γ} (h : ∀ s x, g (f s x).2 = k x) :
    (t : Tree α) → (s : σ) → (t.traverse f s).2.map g = t.map k
  | .leaf x, s => congrArg leaf (h s x)
  | .group items, s => congrArg group (all items s)
where
  all : (ts : List (Tree α)) → (s : σ) →
      map.mapAll g (traverse.traverseAll f s ts).2 = map.mapAll k ts
    | [], _ => rfl
    | t :: rest, s => List.cons_eq_cons.2 ⟨map_traverse h t s, all rest (t.traverse f s).1⟩

/-- The leaves of a tree are changed as they would be in a list. -/
theorem flatten_traverse :
    (t : Tree α) → (s : σ) →
      ((t.traverse f s).1, (t.traverse f s).2.flatten) = mapAccum f s t.flatten
  | .leaf _, _ => rfl
  | .group items, s => all items s
where
  all : (ts : List (Tree α)) → (s : σ) →
      ((traverse.traverseAll f s ts).1, flatten.flattenAll (traverse.traverseAll f s ts).2) =
        mapAccum f s (flatten.flattenAll ts)
    | [], _ => rfl
    | t :: rest, s => by
      -- The first tree is changed from the state given, and the others from the state that it
      -- leaves.
      have ht := flatten_traverse t s
      have hrest := all rest (t.traverse f s).1
      simp only [flatten.flattenAll, traverse.traverseAll, mapAccum_append, ← ht, ← hrest]

/-! ## References by recursion -/

namespace Ref

variable {τ : Type u}

/-- A reference seen from further up: its tree stands at a place. -/
def below (place : List Nat) (r : Ref τ) : Ref τ :=
  { r with place := place ++ r.place }

theorem below_below (p q : List Nat) (r : Ref τ) : (r.below q).below p = r.below (p ++ q) := by
  simp only [below, List.append_assoc]

/-- A reference to what has been changed. -/
def map (f : α → β) (r : Ref α) : Ref β :=
  ⟨r.place, f r.value⟩

end Ref

/-- The references to the leaves from left to right, by recursion on the nesting. -/
def refs : Tree α → List (Ref α)
  | .leaf x => [⟨[], x⟩]
  | .group items => refsFrom 0 items
where
  /-- The references to the leaves of several items with the numbers from `i` on. -/
  refsFrom (i : Nat) : List (Tree α) → List (Ref α)
    | [] => []
    | t :: rest => t.refs.map (.below [i]) ++ refsFrom (i + 1) rest

theorem refsFrom_eq (i : Nat) (items : List (Tree α)) :
    refs.refsFrom i items = (items.zipIdx i).flatMap fun (t, j) => t.refs.map (.below [j]) := by
  induction items generalizing i with
  | nil => rfl
  | cons t rest ih => rw [refs.refsFrom, ih, List.zipIdx_cons, List.flatMap_cons]

theorem refs_group (items : List (Tree α)) :
    (group items).refs = items.zipIdx.flatMap fun (t, i) => t.refs.map (.below [i]) :=
  refsFrom_eq 0 items

/-- Without their places, the leaves are those of the recursion. -/
theorem map_value_refs : (t : Tree α) → t.refs.map Ref.value = t.flatten
  | .leaf _ => rfl
  | .group items => all 0 items
where
  all : (i : Nat) → (ts : List (Tree α)) →
      (refs.refsFrom i ts).map Ref.value = flatten.flattenAll ts
    | _, [] => rfl
    | i, t :: rest => by
      -- To see the leaves from further up does not change them.
      have hbelow : (t.refs.map (Ref.below [i])).map Ref.value = t.flatten :=
        List.map_map.trans (map_value_refs t)
      rw [refs.refsFrom, List.map_append, hbelow, all (i + 1) rest, flatten.flattenAll]

/-- Changed leaves stand where the leaves have stood. -/
theorem refs_map (g : α → β) : (t : Tree α) → (t.map g).refs = t.refs.map (.map g)
  | .leaf _ => rfl
  | .group items => all 0 items
where
  all : (i : Nat) → (ts : List (Tree α)) →
      refs.refsFrom i (map.mapAll g ts) = (refs.refsFrom i ts).map (.map g)
    | _, [] => rfl
    | i, t :: rest => by
      rw [map.mapAll, refs.refsFrom, refs.refsFrom, refs_map g t, all (i + 1) rest,
        List.map_append, List.map_map, List.map_map]
      rfl

/-- A place in a group lies in one of its items. -/
theorem mem_refs_group_iff {items : List (Tree α)} {i : Nat} {place : List Nat} {x : α} :
    ⟨i :: place, x⟩ ∈ (group items).refs ↔ ∃ t, items[i]? = some t ∧ ⟨place, x⟩ ∈ t.refs := by
  have hbelow (t : Tree α) (j : Nat) :
      (⟨i :: place, x⟩ : Ref α) ∈ t.refs.map (.below [j]) ↔ i = j ∧ ⟨place, x⟩ ∈ t.refs := by
    rw [List.mem_map]
    constructor
    · -- A reference into the item number `j` begins with `j`.
      rintro ⟨⟨q, y⟩, hmem, heq⟩
      cases heq
      exact ⟨rfl, hmem⟩
    · rintro ⟨rfl, hmem⟩
      exact ⟨_, hmem, rfl⟩
  simp only [refs_group, List.mem_flatMap, Prod.exists, List.mem_zipIdx_iff_getElem?, hbelow]
  constructor
  · rintro ⟨t, j, hitem, rfl, hmem⟩
    exact ⟨t, hitem, hmem⟩
  · rintro ⟨t, hitem, hmem⟩
    exact ⟨t, i, hitem, rfl, hmem⟩

/-- A leaf is listed with a place if it stands there. -/
theorem mem_refs_iff {t : Tree α} {place : List Nat} {x : α} :
    ⟨place, x⟩ ∈ t.refs ↔ t.leafAt? place = some x := by
  induction place generalizing t with
  -- At the tree itself only a leaf is found, at a place further down only an item of a group.
  | nil =>
    cases t with
    | leaf y => simp [refs, leafAt?, eq_comm]
    | group items => simp [refs_group, Ref.below, leafAt?]
  | cons i place ih =>
    cases t with
    | leaf y => simp [refs, leafAt?]
    | group items => simp only [mem_refs_group_iff, ih, leafAt?, Option.bind_eq_some_iff]

/-- The places ascend, so that none comes twice. -/
theorem pairwise_refs : (t : Tree α) → t.refs.Pairwise (·.place < ·.place)
  | .leaf _ => List.pairwise_singleton _ _
  | .group items => all 0 items
where
  all : (i : Nat) → (ts : List (Tree α)) → (refs.refsFrom i ts).Pairwise (·.place < ·.place)
    | _, [] => .nil
    | i, t :: rest => by
      refine List.pairwise_append.2 ⟨List.pairwise_map.2 ?_, all (i + 1) rest, ?_⟩
      · -- Places in one item are compared behind its number.
        exact (pairwise_refs t).imp fun h => List.cons_lt_cons_iff.2 (.inr ⟨rfl, h⟩)
      · -- The items come with ascending numbers, which decide between two of them.
        intro r hr r' hr'
        obtain ⟨s, -, rfl⟩ := List.mem_map.1 hr
        rw [refsFrom_eq] at hr'
        obtain ⟨⟨t', j⟩, hitem, hr'⟩ := List.mem_flatMap.1 hr'
        obtain ⟨s', -, rfl⟩ := List.mem_map.1 hr'
        exact List.cons_lt_cons_iff.2 (.inl (List.le_snd_of_mem_zipIdx hitem))

/-! ## References found with a stack -/

namespace Walk

/-- The leaves that are still to be found: those of the parts on the stack, from its top down. -/
def ahead (stack : List (Ref (Tree α))) : List (Ref α) :=
  stack.reverse.flatMap fun r => r.value.refs.map (.below r.place)

theorem ahead_concat (stack : List (Ref (Tree α))) (place : List Nat) (t : Tree α) :
    ahead (stack ++ [⟨place, t⟩]) = t.refs.map (.below place) ++ ahead stack := by
  simp [ahead]

/-- The items of a group come from the stack in the order in which they stand in the group. -/
theorem ahead_append_itemRefs (stack : List (Ref (Tree α))) (place : List Nat)
    (items : List (Tree α)) :
    ahead (stack ++ (itemRefs place items).reverse) =
      (group items).refs.map (.below place) ++ ahead stack := by
  simp [ahead, itemRefs, refs_group, List.flatMap_map, List.map_flatMap, Function.comp_def,
    Ref.below_below]

/-- What has been found and what is still to be found stays the same with every visit. -/
theorem found_append_ahead_of_next? {w w' : Walk α} (h : w.next? = some w') :
    w'.found.toList ++ ahead w'.stack.toList = w.found.toList ++ ahead w.stack.toList := by
  obtain ⟨stack, ⟨place, t⟩, hstack, rfl⟩ := exists_of_next? h
  rw [hstack, Array.toList_push, ahead_concat]
  cases t with
  | leaf x => simp [visit, refs, Ref.below]
  | group items => simp only [visit, Array.toList_appendList, ahead_append_itemRefs]

theorem run_eq (w : Walk α) : w.run = w.found.toList ++ ahead w.stack.toList := by
  fun_induction run w with
  | case1 w w' h _ ih => rw [ih, found_append_ahead_of_next? h]
  | case2 w h => simp [ahead, stack_eq_of_next?_eq_none h]

end Walk

/-- The references found with a stack are those of the recursion. -/
theorem leafRefs_eq_refs (t : Tree α) : t.leafRefs = t.refs := by
  have hbelow : t.refs.map (.below []) = t.refs := List.map_id _
  simp [leafRefs, Walk.run_eq, Walk.ahead, hbelow]

example : (group [leaf 'a', group [], group [leaf 'b', leaf 'c']]).leafRefs =
    [⟨[0], 'a'⟩, ⟨[2, 0], 'b'⟩, ⟨[2, 1], 'c'⟩] := by
  decide +kernel

/-- A stack gives the leaves from left to right, each with the place where it stands. -/
structure FindsLeaves (t : Tree α) : Prop where
  leafRefs_eq : t.leafRefs = t.refs
  leaves_eq : t.leaves = t.flatten
  map_value : t.leafRefs.map Ref.value = t.leaves
  /-- The numbers of the items ascend along the list, so that no leaf is found twice. -/
  ascending : t.leafRefs.Pairwise (·.place < ·.place)
  mem_iff : ∀ place x, ⟨place, x⟩ ∈ t.leafRefs ↔ t.leafAt? place = some x

theorem findsLeaves (t : Tree α) : t.FindsLeaves where
  leafRefs_eq := leafRefs_eq_refs t
  leaves_eq := leaves_eq_flatten t
  map_value := by rw [leafRefs_eq_refs, map_value_refs, leaves_eq_flatten]
  ascending := leafRefs_eq_refs t ▸ pairwise_refs t
  mem_iff _ _ := leafRefs_eq_refs t ▸ mem_refs_iff

/-! ## Images of leaves -/

/-- A tree with the nesting of another one, groups without items included, and leaves of its own. -/
structure IsRelabelling (t : Tree α) (leaves : List β) (t' : Tree β) : Prop where
  nesting : t'.map (fun _ => ()) = t.map fun _ => ()
  places : t'.leafRefs.map Ref.place = t.leafRefs.map Ref.place
  leaves_eq : t'.leaves = leaves

/-- The nesting decides where the leaves stand. -/
theorem map_place_leafRefs (t : Tree α) :
    t.leafRefs.map Ref.place = (t.map fun _ => ()).refs.map Ref.place := by
  rw [leafRefs_eq_refs, refs_map, List.map_map]
  rfl

theorem IsRelabelling.of_nesting {t : Tree α} {leaves : List β} {t' : Tree β}
    (hnesting : t'.map (fun _ => ()) = t.map fun _ => ()) (hleaves : t'.leaves = leaves) :
    t.IsRelabelling leaves t' where
  nesting := hnesting
  places := by rw [map_place_leafRefs, map_place_leafRefs, hnesting]
  leaves_eq := hleaves

/-- Leaves changed from left to right. -/
theorem isRelabelling_traverse (f : σ → α → σ × β) (s : σ) (t : Tree α) :
    t.IsRelabelling (mapAccum f s t.leaves).2 (t.traverse f s).2 := by
  refine .of_nesting (map_traverse (k := fun _ => ()) (fun _ _ => rfl) t s) ?_
  rw [leaves_eq_flatten, leaves_eq_flatten, ← flatten_traverse]

/-- Leaves changed each for itself. -/
theorem isRelabelling_map (k : α → β) (t : Tree α) :
    t.IsRelabelling (t.leaves.map k) (t.map k) := by
  refine .of_nesting (map_map (fun _ => ()) k t) ?_
  calc (t.map k).leaves
    _ = (t.map k).refs.map Ref.value := by rw [leaves_eq_flatten, map_value_refs]
    _ = t.refs.map (k ∘ Ref.value) := by rw [refs_map, List.map_map]; rfl
    _ = t.leaves.map k := by rw [← List.map_map, map_value_refs, leaves_eq_flatten]

/-! ## Changes in place -/

section Update

variable {g : σ → α → σ × α}

theorem modify_append_cons (front : List α) (x : α) (back : List α) (h : α → α) :
    (front ++ x :: back).modify front.length h = front ++ h x :: back := by
  simp [List.modify_eq_take_drop]

/-- What is changed below an item is changed in the group, and nothing else is. -/
theorem updateAt_group (s : σ) (front : List (Tree α)) (t : Tree α) (back : List (Tree α))
    (r : Ref α) :
    updateAt g (s, group (front ++ t :: back)) (r.below [front.length]) =
      ((updateAt g (s, t) r).1, group (front ++ (updateAt g (s, t) r).2 :: back)) := by
  -- In the group the item stands behind the `front`, so the leaf is the one of the item.
  have hitem : leafAt? (group (front ++ t :: back)) (r.below [front.length]).place =
      t.leafAt? r.place := by
    simp [Ref.below, leafAt?]
  rw [updateAt, updateAt, hitem]
  cases t.leafAt? r.place with
  | none => rfl
  | some x => simp only [Ref.below, List.cons_append, List.nil_append, setLeaf, modify_append_cons]

/-- Several changes below an item are changes of the item. -/
theorem foldl_updateAt_below (s : σ) (front : List (Tree α)) (t : Tree α) (back : List (Tree α))
    (rs : List (Ref α)) :
    (rs.map (Ref.below [front.length])).foldl (updateAt g) (s, group (front ++ t :: back)) =
      ((rs.foldl (updateAt g) (s, t)).1,
        group (front ++ (rs.foldl (updateAt g) (s, t)).2 :: back)) := by
  induction rs generalizing s t with
  | nil => rfl
  | cons r rs ih => rw [List.map_cons, List.foldl_cons, updateAt_group, ih, List.foldl_cons]

/-- Leaves that are changed in place are changed as in a traversal. -/
theorem foldl_updateAt_refs :
    (t : Tree α) → (s : σ) → t.refs.foldl (updateAt g) (s, t) = t.traverse g s
  | .leaf _, _ => rfl
  | .group items, s => all [] items s
where
  -- The items in front have been changed already.
  all : (front ts : List (Tree α)) → (s : σ) →
      (refs.refsFrom front.length ts).foldl (updateAt g) (s, group (front ++ ts)) =
        ((traverse.traverseAll g s ts).1, group (front ++ (traverse.traverseAll g s ts).2))
    | _, [], _ => rfl
    | front, t :: rest, s => by
      -- The changed item now stands behind those in front of it.
      have hrest := all (front ++ [(t.traverse g s).2]) rest (t.traverse g s).1
      rw [List.length_append, List.length_singleton, ← List.append_cons, ← List.append_cons]
        at hrest
      rw [refs.refsFrom, List.foldl_append, foldl_updateAt_below, foldl_updateAt_refs t s]
      exact hrest

theorem update_eq_traverse (t : Tree α) (s : σ) : t.update g s = t.traverse g s := by
  rw [update, leafRefs_eq_refs, foldl_updateAt_refs]

end Update

end Tree

end Morphology
