import Morphology.Proofs.Grammar.Occurrence

/-!
# Joined inflexions

What an inflexion has after another one is joined to it: its boundaries, and the continuations of
the other one in place of its own.

## Main definitions

* `Inflexion.HasBoundary` — an inflexion with parts has a boundary

## Main statements

* `Inflexion.isInvariant_hasBoundary` — all inflexions of compiled grammars have
* `Inflexion.continuations_of_join?` — the continuations of a join
* `Inflexion.IsSuffix.join` — the join of suffixes is a suffix
-/

namespace Morphology

/-! ## Boundaries of inflexions -/

namespace Flex

theorem exists_boundary_of_withBoundary (parts : List FlexPart) :
    ∃ p ∈ withBoundary parts, p.role.isBoundary = true := by
  unfold withBoundary
  split
  · rename_i hany
    simpa using hany
  · split
    · split
      · exact ⟨.marker .stem, by simp, rfl⟩
      · exact ⟨.marker .stem, by simp, rfl⟩
    · exact ⟨.marker .stem, by simp, rfl⟩

theorem mem_distribute {parts : List FlexPart} {p : FlexPart} (hp : p ∈ parts)
    (hrole : p.role.takesGloss = false) (slices : List String) : p ∈ distribute parts slices := by
  induction parts generalizing slices with
  | nil => exact absurd hp List.not_mem_nil
  | cons q parts ih =>
    unfold distribute
    rcases List.mem_cons.1 hp with rfl | hp
    · simp [hrole]
    · split
      · split
        · exact List.mem_cons_of_mem _ (ih hp _)
        · exact List.mem_cons_of_mem _ (ih hp _)
      · exact List.mem_cons_of_mem _ (ih hp _)

theorem mem_insertAffix_of_mem {x p : FlexPart} {parts : List FlexPart} (hp : p ∈ parts) :
    p ∈ insertAffix x parts := by
  induction parts with
  | nil => exact absurd hp List.not_mem_nil
  | cons q parts ih =>
    rw [insertAffix]
    split
    · exact List.mem_cons_of_mem _ hp
    · rcases List.mem_cons.1 hp with rfl | hp
      · exact List.mem_cons_self ..
      · exact List.mem_cons_of_mem _ (ih hp)

/-- The parts that a flex stands for have a boundary among them. -/
theorem exists_boundary_of_read {flex gloss : String} {parts : List FlexPart}
    (h : read flex = .ok parts) :
    ∃ p ∈ assignGlosses parts gloss, p.role.isBoundary = true := by
  obtain ⟨written, -, rfl⟩ := map_eq_ok_iff.1 h
  obtain ⟨p, hp, hboundary⟩ := exists_boundary_of_withBoundary written
  refine ⟨p, ?_, hboundary⟩
  have hrole : p.role.takesGloss = false := by
    cases hr : p.role <;> simp_all [Role.isBoundary, Role.takesGloss]
  unfold assignGlosses
  split
  · exact mem_distribute hp hrole _
  · split
    · exact mem_distribute hp hrole _
    · exact mem_insertAffix_of_mem hp

end Flex

namespace Inflexion

variable {i child joined : Inflexion}

/-- If an inflexion has parts, there is a boundary among them. -/
def HasBoundary (i : Inflexion) : Prop :=
  i.parts ≠ [] → ∃ p ∈ i.parts, p.role.isBoundary = true

theorem parts_ne_nil_of_continues (h : i.continues = true) : i.parts ≠ [] := by
  rintro hnil
  simp [continues, hnil] at h

/-- The boundaries of an inflexion stay where another one is joined to it. -/
theorem HasBoundary.exists_of_join? (hi : i.HasBoundary) (h : i.join? child = some joined) :
    ∃ p ∈ joined.parts, p.role.isBoundary = true := by
  obtain ⟨hcont, hparts, -⟩ := parts_of_join? h
  obtain ⟨p, hp, hboundary⟩ := hi (parts_ne_nil_of_continues hcont)
  refine ⟨p, ?_, hboundary⟩
  rw [hparts]
  apply mem_splice_right hp
  intro hrole
  rw [hrole] at hboundary
  exact absurd hboundary (by decide)

theorem isInvariant_hasBoundary : IsInvariant HasBoundary where
  ofEntry := by
    intro find? paradigm e i h _
    obtain ⟨made, hmade, hparts, -⟩ := (isOfEntry h).flex
    obtain ⟨parts, hread, rfl⟩ := map_eq_ok_iff.1 hmade
    rw [hparts]
    exact Flex.exists_boundary_of_read hread
  link := by
    intro handles hne
    exact absurd rfl hne
  join := fun _ _ _ hi _ h _ => hi.exists_of_join? h

/-- What another inflexion is joined to is no link. -/
theorem HasBoundary.isLink_of_join? (hi : i.HasBoundary) (h : i.join? child = some joined) :
    joined.isLink = false := by
  obtain ⟨p, hp, -⟩ := hi.exists_of_join? h
  have hne : joined.parts ≠ [] := List.ne_nil_of_mem hp
  simp [isLink, hne]

/-! ## Continuations of joins -/

theorem continues_of_isLink (h : i.isLink = true) : i.continues = false := by
  rw [continues, parts_of_isLink h]
  rfl

theorem continues_iff : i.continues = true ↔ 0 < i.continuations := by
  rw [continuations, List.countP_pos_iff]
  simp [continues]

/-- What is spliced in takes the place of one continuation. -/
private theorem countP_splice {parts : List FlexPart}
    (h : parts.any (·.role = .continuation) = true) (inserted : List FlexPart) :
    (splice inserted parts).countP (·.role = .continuation) + 1 =
      parts.countP (·.role = .continuation) + inserted.countP (·.role = .continuation) := by
  induction parts with
  | nil => simp at h
  | cons q parts ih =>
    rw [splice]
    split
    · -- The continuation is here: the inserted parts stand in its place.
      rename_i hrole
      rw [List.countP_append, List.countP_cons_of_pos (by simpa using hrole)]
      omega
    · -- It is further back, and this part counts on neither side.
      rename_i hrole
      have := ih (by simpa [hrole] using h)
      rw [List.countP_cons_of_neg (by simpa using hrole),
        List.countP_cons_of_neg (by simpa using hrole)]
      exact this

/-- A continuation is no boundary, and so all of them are among the inner parts. -/
private theorem countP_innerParts (i : Inflexion) :
    i.innerParts.countP (·.role = .continuation) = i.continuations := by
  unfold innerParts continuations
  rw [List.countP_filter]
  congr 1
  funext p
  cases hr : p.role <;> simp_all [Role.isBoundary]

/-- Joining takes one continuation away and puts those of the other inflexion in its place. -/
theorem continuations_of_join? (h : i.join? child = some joined) :
    joined.continuations + 1 = i.continuations + child.continuations := by
  obtain ⟨hcont, hparts, -⟩ := parts_of_join? h
  rw [← countP_innerParts child, continuations, hparts]
  exact countP_splice hcont child.innerParts

/-- The join of a single continuation with what has none has none. -/
theorem continues_of_join? (h : i.join? child = some joined) (hone : i.continuations = 1)
    (hchild : child.continues = false) : joined.continues = false := by
  have hcount := continuations_of_join? h
  have hzero : ¬ 0 < child.continuations := by
    rw [← continues_iff, hchild]
    exact Bool.false_ne_true
  by_contra hcont
  rw [Bool.not_eq_false, continues_iff] at hcont
  omega

/-! ## Suffixes -/

/-- The join of suffixes is a suffix if no second continuation comes in. -/
theorem IsSuffix.join (hi : i.IsSuffix) (hchild : child.IsSuffix)
    (hclosed : child.continues = false) (h : i.join? child = some joined) :
    joined.IsSuffix := by
  have hcount := continuations_of_join? h
  obtain ⟨-, hparts, -⟩ := parts_of_join? h
  obtain ⟨first, hfirst, hboundary⟩ := hi.first
  obtain ⟨rest, hrest⟩ := List.head?_eq_some_iff.1 hfirst
  -- The boundary in front stays where it is.
  have hsplice : joined.parts = first :: splice child.innerParts rest := by
    rw [hparts, hrest, splice, if_neg]
    intro hrole
    rw [hrole] at hboundary
    exact absurd hboundary (by decide)
  -- Every part of the join comes from one of the two.
  have hmem {p : FlexPart} (hp : p ∈ joined.parts) : p ∈ child.parts ∨ p ∈ i.parts := by
    rw [hparts] at hp
    exact (mem_splice hp).imp_left fun hp => (List.mem_filter.1 hp).1
  refine ⟨⟨first, by simp [hsplice], hboundary⟩, ?_, ?_, ?_, ?_⟩
  · -- Behind the boundary in front there is none: the child's own boundaries were taken out.
    intro p hp
    rw [hsplice, List.tail_cons] at hp
    rcases mem_splice hp with hp | hp
    · have := (List.mem_filter.1 hp).2
      simp only [Bool.and_eq_true, Bool.not_eq_true'] at this
      exact this.1
    · exact hi.only p (by simpa [hrest] using hp)
  · -- The one continuation was used up, and a closed child brings no other.
    have hone := hi.continuations
    have hnone : ¬ 0 < child.continuations := by
      rw [← continues_iff, hclosed]
      exact Bool.false_ne_true
    omega
  · refine List.any_eq_false.2 fun p hp => ?_
    rcases hmem hp with hp | hp
    · exact List.any_eq_false.1 hchild.incorporates p hp
    · exact List.any_eq_false.1 hi.incorporates p hp
  · intro p hp
    rcases hmem hp with hp | hp
    · exact hchild.self p hp
    · exact hi.self p hp

end Inflexion

end Morphology
