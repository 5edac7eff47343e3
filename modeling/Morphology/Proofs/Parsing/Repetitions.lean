import Morphology.Parser
import Morphology.Proofs.Grammar.Rules
import Morphology.Proofs.Grammar.Siblings

/-!
# Analyses that are found more than once

Behind the search, analyses are filtered and enriched before repetitions are dropped.  Rules and
markers do not see how often an analysis was found.  The filter does, in one case: a copy of an
analysis is a sibling of it, and may drop it by a pair of templates to both of which it conforms.

## Main definitions

* `Grammar.outcomes` — what becomes of an analysis that is not dropped
* `BadAnalyses.DropsForCopy` — an analysis is dropped on account of its own copy

## Main statements

* `dedup_flatMap_dedup` — repeated items change nothing where repetitions are dropped in the end
* `BadAnalyses.keeps_eq_keeps_dedup` — but for that case the filter does not see repetitions
* `Grammar.postprocess_of_dedup` — what is left does not depend on repetitions but for that case
* `Grammar.not_postprocess_of_dedup_selfPair` — the case occurs
-/

namespace Morphology

universe u v

/-! ## Items without repetitions -/

section Dedup

variable {α : Type u} {β : Type v} [BEq α]

theorem dedupFrom_sublist (seen xs : List α) : (dedupFrom seen xs).Sublist xs := by
  induction xs generalizing seen with
  | nil => exact .slnil
  | cons x rest ih =>
    rw [dedupFrom]
    split
    · exact (ih seen).cons x
    · exact (ih _).cons_cons x

theorem dedup_sublist (xs : List α) : (dedup xs).Sublist xs :=
  dedupFrom_sublist [] xs

variable [LawfulBEq α] [BEq β] [LawfulBEq β]

theorem mem_dedupFrom {seen xs : List α} {x : α} :
    x ∈ dedupFrom seen xs ↔ x ∈ xs ∧ x ∉ seen := by
  induction xs generalizing seen with
  | nil => simp [dedupFrom]
  | cons y rest ih =>
    rw [dedupFrom]
    split
    · rename_i hy
      have hy : y ∈ seen := List.contains_iff_mem.1 hy
      rw [ih, List.mem_cons]
      constructor
      · exact fun h => ⟨.inr h.1, h.2⟩
      · intro h
        refine ⟨h.1.resolve_left fun heq => ?_, h.2⟩
        exact h.2 (heq ▸ hy)
    · rename_i hy
      have hy : y ∉ seen := fun hmem => hy (List.contains_iff_mem.2 hmem)
      rw [List.mem_cons, ih, List.mem_cons, List.mem_cons]
      by_cases heq : x = y
      · simp [heq, hy]
      · simp [heq]

@[simp] theorem mem_dedup {xs : List α} {x : α} : x ∈ dedup xs ↔ x ∈ xs := by
  simp [dedup, mem_dedupFrom]

theorem nodup_dedupFrom (seen xs : List α) : (dedupFrom seen xs).Nodup := by
  induction xs generalizing seen with
  | nil => exact List.nodup_nil
  | cons x rest ih =>
    rw [dedupFrom]
    split
    · exact ih seen
    · refine List.nodup_cons.2 ⟨fun hmem => ?_, ih _⟩
      exact (mem_dedupFrom.1 hmem).2 (List.mem_cons_self ..)

theorem nodup_dedup (xs : List α) : (dedup xs).Nodup :=
  nodup_dedupFrom [] xs

theorem dedup_eq_nil_iff {xs : List α} : dedup xs = [] ↔ xs = [] := by
  rw [List.eq_nil_iff_forall_not_mem, List.eq_nil_iff_forall_not_mem]
  simp only [mem_dedup]

/-- Only which items are done with counts. -/
theorem dedupFrom_congr {seen seen' : List α} (h : ∀ x, x ∈ seen ↔ x ∈ seen') (xs : List α) :
    dedupFrom seen xs = dedupFrom seen' xs := by
  induction xs generalizing seen seen' with
  | nil => rfl
  | cons x rest ih =>
    have hx : seen.contains x = seen'.contains x := by
      rw [Bool.eq_iff_iff, List.contains_iff_mem, List.contains_iff_mem, h x]
    have hcons : ∀ y, y ∈ x :: seen ↔ y ∈ x :: seen' := fun y => by
      rw [List.mem_cons, List.mem_cons, h y]
    rw [dedupFrom, dedupFrom, hx, ih h, ih hcons]

theorem dedupFrom_append (seen xs ys : List α) :
    dedupFrom seen (xs ++ ys) = dedupFrom seen xs ++ dedupFrom (xs ++ seen) ys := by
  induction xs generalizing seen with
  | nil => rfl
  | cons x rest ih =>
    rw [List.cons_append, dedupFrom, dedupFrom]
    split
    · rename_i hx
      have hx : x ∈ seen := List.contains_iff_mem.1 hx
      rw [ih]
      refine congrArg _ (dedupFrom_congr (fun y => ?_) ys)
      simp only [List.cons_append, List.mem_cons, List.mem_append]
      exact (or_iff_right_of_imp fun heq => .inr (heq ▸ hx)).symm
    · rw [ih, List.cons_append]
      refine congrArg (x :: _ ++ ·) (dedupFrom_congr (fun y => ?_) ys)
      simp only [List.cons_append, List.mem_cons, List.mem_append]
      exact or_left_comm

theorem dedupFrom_eq_nil {seen xs : List α} (h : xs ⊆ seen) : dedupFrom seen xs = [] := by
  rw [List.eq_nil_iff_forall_not_mem]
  intro x hx
  obtain ⟨hmem, hnew⟩ := mem_dedupFrom.1 hx
  exact hnew (h hmem)

theorem dedupFrom_flatMap {f : α → List β} {seen xs : List α} {made : List β}
    (h : ∀ x ∈ seen, f x ⊆ made) :
    dedupFrom made ((dedupFrom seen xs).flatMap f) = dedupFrom made (xs.flatMap f) := by
  induction xs generalizing seen made with
  | nil => rfl
  | cons x rest ih =>
    rw [dedupFrom, List.flatMap_cons, dedupFrom_append]
    split
    · rename_i hx
      -- What a repeated item leads to is there already.
      have hmade : f x ⊆ made := h x (List.contains_iff_mem.1 hx)
      rw [dedupFrom_eq_nil hmade, List.nil_append, ih h]
      refine dedupFrom_congr (fun y => ?_) _
      rw [List.mem_append]
      exact (or_iff_right_of_imp fun hy => hmade hy).symm
    · rw [List.flatMap_cons, dedupFrom_append]
      refine congrArg _ (ih fun y hy => ?_)
      cases List.mem_cons.1 hy with
      | inl heq => exact heq ▸ List.subset_append_left _ _
      | inr hseen => exact List.Subset.trans (h y hseen) (List.subset_append_right _ _)

/-- Where repetitions are dropped in the end, it does not matter whether they were there before. -/
theorem dedup_flatMap_dedup (f : α → List β) (xs : List α) :
    dedup ((dedup xs).flatMap f) = dedup (xs.flatMap f) :=
  dedupFrom_flatMap fun _ hx => absurd hx List.not_mem_nil

end Dedup

/-- A choice in front of a list of results is one among the results. -/
theorem flatMap_filter {α : Type u} {β : Type v} (p : α → Bool) (f : α → List β) (xs : List α) :
    (xs.filter p).flatMap f = xs.flatMap fun x => if p x then f x else [] := by
  induction xs with
  | nil => rfl
  | cons x rest ih =>
    rw [List.flatMap_cons, ← ih]
    cases hp : p x with
    | true => simp [hp]
    | false => simp [hp]

/-! ## Analyses without repetitions -/

namespace BadAnalyses

variable {P : Type} [PatternEngine P] {b : BadAnalyses P} {analyses : List Wordform} {w : Wordform}

/-- An analysis that was found more than once is dropped on account of its own copy: it conforms to
both halves of a pair, and if it were there once it would stay. -/
structure DropsForCopy (b : BadAnalyses P) (analyses : List Wordform) (w : Wordform) : Prop where
  repeated : 1 < analyses.count w
  conforms : ∃ pair ∈ b.conditional, pair.1.conforms w = true ∧ pair.2.conforms w = true
  stays : w ∈ b.filter (dedup analyses)

/-- Among the siblings, copies of the analysis itself are the only ones that repetitions change. -/
theorem keeps_eq_keeps_dedup (hw : w ∈ analyses) (hcopy : ¬ b.DropsForCopy analyses w) :
    b.keeps analyses w = b.keeps (dedup analyses) w := by
  apply Bool.eq_iff_iff.2
  refine ⟨keeps_of_sublist (dedup_sublist analyses), fun hkeeps => ?_⟩
  rw [keeps, Bool.not_eq_true', ← Bool.not_eq_true]
  intro hdrops
  cases drops_iff.1 hdrops with
  | inl hmeets =>
    rw [keeps, drops_iff.2 (.inl hmeets)] at hkeeps
    exact absurd hkeeps Bool.false_ne_true
  | inr hpair =>
    obtain ⟨pair, hmem, hremove, other, hother, hcondition⟩ := hpair
    by_cases heq : other = w
    · -- The sibling is a copy.
      subst heq
      have hcount : 0 < (analyses.erase other).count other := List.count_pos_iff.2 hother
      rw [List.count_erase_self] at hcount
      have hstays : other ∈ b.filter (dedup analyses) :=
        mem_filter_iff_keeps.2 ⟨mem_dedup.2 hw, hkeeps⟩
      exact hcopy ⟨by omega, ⟨pair, hmem, hremove, hcondition⟩, hstays⟩
    · -- The sibling is another analysis, which is there without repetitions too.
      have hother : other ∈ (dedup analyses).erase w :=
        (List.mem_erase_of_ne heq).2 (mem_dedup.2 (List.mem_of_mem_erase hother))
      rw [keeps, drops_iff.2 (.inr ⟨pair, hmem, hremove, other, hother, hcondition⟩)] at hkeeps
      exact absurd hkeeps Bool.false_ne_true

end BadAnalyses

namespace Grammar

variable {g : Grammar} {analyses : List Wordform} {w : Wordform}

/-- What becomes of an analysis that is not dropped. -/
def outcomes (g : Grammar) (w : Wordform) : List Wordform :=
  (g.enrich w).map (·.expandMarkers)

theorem postprocess_eq (g : Grammar) (analyses : List Wordform) :
    g.postprocess analyses = dedup ((g.badAnalyses.filter analyses).flatMap g.outcomes) := by
  rw [postprocess, applyRules_eq_flatMap, List.map_flatMap]
  rfl

theorem mem_postprocess_iff : w ∈ g.postprocess analyses ↔
    ∃ found ∈ g.badAnalyses.filter analyses, w ∈ g.outcomes found := by
  rw [postprocess_eq, mem_dedup, List.mem_flatMap]

theorem postprocess_eq_dedup_flatMap (g : Grammar) (analyses : List Wordform) :
    g.postprocess analyses = dedup (analyses.flatMap fun w =>
      if g.badAnalyses.keeps analyses w then g.outcomes w else []) := by
  rw [postprocess_eq, BadAnalyses.filter_eq, flatMap_filter]

/-- **Repetitions behind the search.**  For every grammar and every list of analyses, what
`postprocess` leaves has no repetitions. It is the same as if no analysis had been found more than
once, unless one of them is dropped on account of its own copy (`DropsForCopy`); and even then
repetitions add nothing. -/
theorem postprocess_of_dedup (g : Grammar) (analyses : List Wordform) :
    (g.postprocess analyses).Nodup ∧
    ((∀ w ∈ analyses, ¬ g.badAnalyses.DropsForCopy analyses w) →
      g.postprocess analyses = g.postprocess (dedup analyses)) ∧
    g.postprocess analyses ⊆ g.postprocess (dedup analyses) := by
  refine ⟨nodup_dedup _, fun hcopy => ?_, fun w hw => ?_⟩
  · -- Each analysis is kept or dropped as it is among those without repetitions.
    rw [postprocess_eq_dedup_flatMap, postprocess_eq_dedup_flatMap, ← dedup_flatMap_dedup]
    refine congrArg dedup (List.flatMap_congr fun w hw => ?_)
    have hw : w ∈ analyses := mem_dedup.1 hw
    rw [BadAnalyses.keeps_eq_keeps_dedup hw (hcopy w hw)]
  · -- What is left was kept beside more analyses than there are without repetitions.
    obtain ⟨found, hfound, hmade⟩ := mem_postprocess_iff.1 hw
    obtain ⟨hmem, hkeeps⟩ := BadAnalyses.mem_filter_iff_keeps.1 hfound
    have hfound : found ∈ g.badAnalyses.filter (dedup analyses) :=
      BadAnalyses.mem_filter_iff_keeps.2
        ⟨mem_dedup.2 hmem, BadAnalyses.keeps_of_sublist (dedup_sublist analyses) hkeeps⟩
    exact mem_postprocess_iff.2 ⟨found, hfound, hmade⟩

/-- A document with a pair of templates to both of which an analysis may conform. -/
def selfPairEntries : GrammarDocument :=
  { GrammarDocument.empty with
    badAnalyses := some (.arr [.obj [
      (some "remove", .obj [(some "gramm", .str (some "N"))]),
      (some "if_exists", .obj [(some "lex", .str (some "cat"))])]]) }

/-- The grammar of that document. -/
def selfPair : Grammar := (ofDocument default selfPairEntries).grammar

theorem postprocess_of_dedup_selfPair :
    (∀ w ∈ List.replicate 2 (BadAnalyses.sampleAnalysis "dog" "N"),
      ¬ selfPair.badAnalyses.DropsForCopy
        (List.replicate 2 (BadAnalyses.sampleAnalysis "dog" "N")) w) ∧
    selfPair.postprocess (List.replicate 2 (BadAnalyses.sampleAnalysis "dog" "N")) =
      [BadAnalyses.sampleAnalysis "dog" "N"] := by
  have hcopy : ∀ w ∈ List.replicate 2 (BadAnalyses.sampleAnalysis "dog" "N"),
      ¬ selfPair.badAnalyses.DropsForCopy
        (List.replicate 2 (BadAnalyses.sampleAnalysis "dog" "N")) w := by
    intro w hw h
    -- The condition of the pair does not hold of the analysis itself.
    have hnone : ∀ pair ∈ selfPair.badAnalyses.conditional,
        pair.2.conforms (BadAnalyses.sampleAnalysis "dog" "N") = false := by decide +kernel
    obtain ⟨pair, hpair, -, hcondition⟩ := h.conforms
    obtain rfl := List.eq_of_mem_replicate hw
    exact absurd ((hnone pair hpair).symm.trans hcondition) Bool.false_ne_true
  refine ⟨hcopy, ?_⟩
  rw [(postprocess_of_dedup selfPair _).2.1 hcopy]
  decide +kernel

/-- An analysis that was found twice is a sibling of its own, and both copies are dropped; found
once, it stays. -/
theorem not_postprocess_of_dedup_selfPair :
    selfPair.postprocess (List.replicate 2 (BadAnalyses.sampleAnalysis "cat" "N")) = [] ∧
    selfPair.postprocess (dedup (List.replicate 2 (BadAnalyses.sampleAnalysis "cat" "N"))) =
      [BadAnalyses.sampleAnalysis "cat" "N"] ∧
    ¬ ∀ (config : GrammarConfig) (doc : GrammarDocument) (analyses : List Wordform),
      (ofDocument config doc).grammar.postprocess analyses =
        (ofDocument config doc).grammar.postprocess (dedup analyses) := by
  have htwice : selfPair.postprocess
      (List.replicate 2 (BadAnalyses.sampleAnalysis "cat" "N")) = [] := by decide +kernel
  have honce : selfPair.postprocess
      (dedup (List.replicate 2 (BadAnalyses.sampleAnalysis "cat" "N"))) =
        [BadAnalyses.sampleAnalysis "cat" "N"] := by decide +kernel
  refine ⟨htwice, honce, fun hall => ?_⟩
  have hsame := htwice.symm.trans ((hall default selfPairEntries _).trans honce)
  exact absurd hsame (List.cons_ne_nil _ _).symm

end Grammar

end Morphology
