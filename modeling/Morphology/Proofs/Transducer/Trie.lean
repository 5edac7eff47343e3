import Mathlib.Tactic.Common
import Morphology.Transducer.Builder

/-!
# Values in a trie

What `Trie.alter` does to the values under all keys, and how far a trie reaches: its height, its
breadth and the number of its values bound those of everything below.

## Main definitions

* `Trie.Ordered` — the arcs of every node ascend
* `Trie.weight` — the number of values

## Main statements

* `Trie.find_alter` — a change is seen under its key and nowhere else
* `Trie.weight_alter` — so many values more under a key are so many values more in the trie
* `Trie.height_alter_le` — a trie grows no higher than the keys that are put into it
-/

namespace Morphology

namespace Trie

/-! ## Order of the arcs -/

/-- The arcs of every node ascend. -/
inductive Ordered : Trie → Prop
  | node {values : List Nat} {arcs : List (Nat × Trie)} (hsort : arcs.Pairwise (·.1 < ·.1))
      (hbelow : ∀ a ∈ arcs, Ordered a.2) : Ordered (.node values arcs)

theorem Ordered.empty : Ordered .empty :=
  .node List.Pairwise.nil (by simp)

theorem Ordered.sorted {t : Trie} (h : Ordered t) : t.arcs.Pairwise (·.1 < ·.1) := by
  cases h with
  | node hsort _ => exact hsort

theorem Ordered.child {t : Trie} (h : Ordered t) {a : Nat × Trie} (ha : a ∈ t.arcs) :
    Ordered a.2 := by
  cases h with
  | node _ hbelow => exact hbelow a ha

/-- A node behind an arc is found there. -/
theorem mem_arcs_of_child? {t child : Trie} {s : Nat} (h : t.child? s = some child) :
    (s, child) ∈ t.arcs := by
  obtain ⟨front, back, heq, -⟩ := List.lookup_eq_some_iff.1 h
  rw [heq]
  simp

/-- With ascending arcs a node is found behind its own symbol. -/
theorem Ordered.child?_of_mem {t child : Trie} {s : Nat} (ht : Ordered t)
    (h : (s, child) ∈ t.arcs) : t.child? s = some child := by
  obtain ⟨front, back, heq⟩ := List.append_of_mem h
  refine List.lookup_eq_some_iff.2 ⟨front, back, heq, fun a ha => ?_⟩
  have hlt := (List.pairwise_append.1 (heq ▸ ht.sorted)).2.2 a ha (s, child) (List.mem_cons_self ..)
  simp only [bne_iff_ne, ne_eq]
  omega

variable {s : Nat} {f : Trie → Trie} {arcs : List (Nat × Trie)}

theorem mem_alterArc {a : Nat × Trie} (h : a ∈ alterArc s f arcs) :
    a ∈ arcs ∨ a.1 = s ∧ (a.2 = f .empty ∨ ∃ t, (s, t) ∈ arcs ∧ a.2 = f t) := by
  induction arcs with
  | nil =>
    obtain rfl := List.mem_singleton.1 h
    exact .inr ⟨rfl, .inl rfl⟩
  | cons b rest ih =>
    obtain ⟨s', t⟩ := b
    simp only [alterArc] at h
    -- The new arc comes in front, in place of the first one, or further on.
    split at h
    · rcases List.mem_cons.1 h with rfl | h
      · exact .inr ⟨rfl, .inl rfl⟩
      · exact .inl h
    · split at h
      · rename_i heq
        subst heq
        rcases List.mem_cons.1 h with rfl | h
        · exact .inr ⟨rfl, .inr ⟨t, List.mem_cons_self .., rfl⟩⟩
        · exact .inl (List.mem_cons_of_mem _ h)
      · rcases List.mem_cons.1 h with rfl | h
        · exact .inl (List.mem_cons_self ..)
        · rcases ih h with h | ⟨hs, h | ⟨t', ht', h⟩⟩
          · exact .inl (List.mem_cons_of_mem _ h)
          · exact .inr ⟨hs, .inl h⟩
          · exact .inr ⟨hs, .inr ⟨t', List.mem_cons_of_mem _ ht', h⟩⟩

theorem pairwise_alterArc (h : arcs.Pairwise (·.1 < ·.1)) :
    (alterArc s f arcs).Pairwise (·.1 < ·.1) := by
  induction arcs with
  | nil => simp [alterArc]
  | cons b rest ih =>
    obtain ⟨s', t⟩ := b
    obtain ⟨hb, hrest⟩ := List.pairwise_cons.1 h
    simp only [alterArc]
    split
    · -- In front of an arc with a greater symbol.
      rename_i hlt
      refine List.pairwise_cons.2 ⟨fun a ha => ?_, h⟩
      rcases List.mem_cons.1 ha with rfl | ha
      · exact hlt
      · exact Nat.lt_trans hlt (hb a ha)
    · split
      · rename_i heq
        subst heq
        exact List.pairwise_cons.2 ⟨hb, hrest⟩
      -- The arc changed further on has the symbol given, which is greater.
      · rename_i hlt hne
        refine List.pairwise_cons.2 ⟨fun a ha => ?_, ih hrest⟩
        rcases mem_alterArc ha with ha | ⟨ha, -⟩
        · exact hb a ha
        · show s' < a.1
          omega

private theorem lookup_eq_none_of_lt (h : ∀ a ∈ arcs, s < a.1) : arcs.lookup s = none := by
  rw [List.lookup_eq_none_iff]
  intro a ha
  have := h a ha
  simp only [bne_iff_ne, ne_eq]
  omega

/-- A change behind an arc is seen there and nowhere else: `lookup` of `alterArc`. -/
theorem lookup_alterArc (h : arcs.Pairwise (·.1 < ·.1)) (s' : Nat) :
    (alterArc s f arcs).lookup s' =
      if s' = s then some (f ((arcs.lookup s).getD .empty)) else arcs.lookup s' := by
  induction arcs with
  | nil =>
    by_cases hs : s' = s
    · simp [alterArc, hs]
    · simp [alterArc, List.lookup_cons, hs, beq_eq_false_iff_ne.2 hs]
  | cons b rest ih =>
    obtain ⟨r, t⟩ := b
    obtain ⟨hb, hrest⟩ := List.pairwise_cons.1 h
    simp only [alterArc]
    split
    · rename_i hlt
      -- The arcs ascend, so none of those left has the symbol.
      have hnone : ((r, t) :: rest).lookup s = none := by
        apply lookup_eq_none_of_lt
        intro a ha
        rcases List.mem_cons.1 ha with rfl | ha
        · exact hlt
        · exact Nat.lt_trans hlt (hb a ha)
      rw [hnone]
      by_cases hs : s' = s
      · simp [hs]
      · simp [hs, List.lookup_cons, beq_eq_false_iff_ne.2 hs]
    · split
      · -- The arc is there, and its node is changed.
        rename_i heq
        subst heq
        by_cases hs : s' = s
        · simp [hs]
        · simp [hs, List.lookup_cons, beq_eq_false_iff_ne.2 hs]
      · rename_i hlt hne
        rw [List.lookup_cons, List.lookup_cons, List.lookup_cons, ih hrest]
        -- Another arc is looked up as before.
        by_cases hs : s' = r
        · subst hs
          simp [Ne.symm hne]
        · simp [beq_eq_false_iff_ne.2 hs, beq_eq_false_iff_ne.2 hne]

theorem Ordered.alter {g : List Nat → List Nat} {key : List Nat} {t : Trie} (h : Ordered t) :
    Ordered (t.alter g key) := by
  induction key generalizing t with
  | nil =>
    cases h with
    | node hsort hbelow => exact .node hsort hbelow
  | cons s key ih =>
    apply Ordered.node (pairwise_alterArc h.sorted)
    intro a ha
    rcases mem_alterArc ha with ha | ⟨-, ha | ⟨t', ht', ha⟩⟩
    · exact h.child ha
    · rw [ha]
      exact ih Ordered.empty
    · rw [ha]
      exact ih (h.child ht')

/-! ## Values under keys -/

theorem find_empty (key : List Nat) : empty.find key = [] := by
  cases key <;> rfl

theorem find_cons (t : Trie) (s : Nat) (key : List Nat) :
    t.find (s :: key) = ((t.arcs.lookup s).getD .empty).find key := by
  simp only [find, child?]
  cases t.arcs.lookup s with
  | none => simp [find_empty]
  | some t' => rfl

/-- A change is seen under its key and nowhere else: `find` of `alter`. -/
theorem find_alter {t : Trie} (h : Ordered t) (g : List Nat → List Nat) (key key' : List Nat) :
    (t.alter g key).find key' = if key' = key then g (t.find key) else t.find key' := by
  induction key generalizing t key' with
  | nil =>
    cases key' with
    | nil => rfl
    | cons s' key' => rfl
  | cons s key ih =>
    cases key' with
    | nil => rfl
    -- The first symbols lead to the same node only if they are equal.
    | cons s' key' =>
      rw [find_cons, find_cons, find_cons]
      change (((alterArc s (Trie.alter g key) t.arcs).lookup s').getD empty).find key' = _
      rw [lookup_alterArc h.sorted]
      by_cases hs : s' = s
      · subst hs
        -- The node behind the first symbol is ordered, as it is there or new.
        have hchild : Ordered ((t.arcs.lookup s').getD .empty) := by
          cases hl : t.arcs.lookup s' with
          | none => exact Ordered.empty
          | some c => exact h.child (mem_arcs_of_child? hl)
        simp [ih hchild]
      · simp [hs]

/-! ## Extent -/

/-- The number of values. -/
def weight : Trie → Nat
  | .node vs arcs => vs.length + weights arcs
where
  /-- The number of values behind some arcs. -/
  weights : List (Nat × Trie) → Nat
    | [] => 0
    | (_, t) :: rest => t.weight + weights rest

theorem length_values_le_weight (t : Trie) : t.values.length ≤ t.weight := by
  cases t with
  | node vs arcs => simp [weight, values]

theorem length_arcs_le_breadth (t : Trie) : t.arcs.length ≤ t.breadth := by
  cases t with
  | node vs arcs => exact Nat.le_max_left _ _

variable {t child : Trie}

theorem weight_le_of_mem (h : (s, child) ∈ t.arcs) : child.weight ≤ t.weight := by
  cases t with
  | node vs arcs =>
    have hle : child.weight ≤ weight.weights arcs := by
      induction arcs with
      | nil => simp [Trie.arcs] at h
      | cons b rest ih =>
        simp only [Trie.arcs, List.mem_cons] at h ih
        simp only [weight.weights]
        rcases h with rfl | h
        · simp
        · have := ih h
          omega
    simp only [weight]
    omega

theorem height_lt_of_mem (h : (s, child) ∈ t.arcs) : child.height < t.height := by
  cases t with
  | node vs arcs =>
    simp only [height]
    induction arcs with
    | nil => simp [Trie.arcs] at h
    | cons b rest ih =>
      simp only [Trie.arcs, List.mem_cons] at h ih
      simp only [height.heights]
      rcases h with rfl | h
      · show child.height < max (child.height + 1) _
        omega
      · have := ih h
        omega

theorem breadth_le_of_mem (h : (s, child) ∈ t.arcs) : child.breadth ≤ t.breadth := by
  cases t with
  | node vs arcs =>
    have hle : child.breadth ≤ breadth.breadths arcs := by
      induction arcs with
      | nil => simp [Trie.arcs] at h
      | cons b rest ih =>
        simp only [Trie.arcs, List.mem_cons] at h ih
        simp only [breadth.breadths]
        rcases h with rfl | h
        · exact Nat.le_max_left _ _
        · have := ih h
          omega
    simp only [breadth]
    omega

private theorem weights_alterArc {n : Nat} (hempty : (f empty).weight = n)
    (hf : ∀ t, (f t).weight = t.weight + n) :
    weight.weights (alterArc s f arcs) = weight.weights arcs + n := by
  induction arcs with
  | nil => simp [alterArc, weight.weights, hempty]
  | cons b rest ih =>
    obtain ⟨s', t⟩ := b
    simp only [alterArc]
    -- A new arc has the weight of a node that was empty before.
    split
    · simp only [weight.weights, hempty]
      omega
    · split
      · simp only [weight.weights, hf]
        omega
      · simp only [weight.weights, ih]
        omega

/-- So many values more under a key are so many values more in the trie. -/
theorem weight_alter {g : List Nat → List Nat} {n : Nat} (hg : ∀ vs, (g vs).length = vs.length + n)
    (key : List Nat) (t : Trie) : (t.alter g key).weight = t.weight + n := by
  induction key generalizing t with
  | nil =>
    cases t with
    | node vs arcs =>
      simp only [alter, weight, values, Trie.arcs, hg]
      omega
  | cons s key ih =>
    have hempty : (empty.alter g key).weight = n := (ih empty).trans (Nat.zero_add n)
    cases t with
    | node vs arcs =>
      simp only [alter, weight, values, Trie.arcs, weights_alterArc hempty ih]
      omega

private theorem heights_alterArc_le {n : Nat} (hempty : (f empty).height ≤ n)
    (hf : ∀ t, (f t).height ≤ max t.height n) :
    height.heights (alterArc s f arcs) ≤ max (height.heights arcs) (n + 1) := by
  induction arcs with
  | nil =>
    simp only [alterArc, height.heights]
    omega
  | cons b rest ih =>
    obtain ⟨s', t⟩ := b
    have ht := hf t
    simp only [alterArc]
    split
    · simp only [height.heights]
      omega
    · split
      · simp only [height.heights]
        omega
      · simp only [height.heights]
        omega

/-- A trie grows no higher than the keys that are put into it. -/
theorem height_alter_le (g : List Nat → List Nat) (key : List Nat) (t : Trie) :
    (t.alter g key).height ≤ max t.height key.length := by
  induction key generalizing t with
  | nil =>
    cases t with
    | node vs arcs => exact Nat.le_max_left _ _
  | cons s key ih =>
    have hempty : (empty.alter g key).height ≤ key.length := by
      have := ih empty
      rwa [show empty.height = 0 from rfl, Nat.zero_max] at this
    cases t with
    | node vs arcs => exact heights_alterArc_le hempty ih

end Trie

end Morphology
