import Mathlib.Data.List.Perm.Basic
import Morphology.Proofs.Grammar.BadAnalyses

/-!
# Bad analyses among their siblings

Which analyses of a list are dropped is decided by places: an analysis is judged beside those in all
other places.  It comes to the same to judge it by what it is, beside the rest of the list without
one copy of it.  In this form the choice does not depend on the order of the list, and with fewer
siblings fewer analyses are dropped, so that what stays once stays when it is judged again.

## Main definitions

* `BadAnalyses.drops` — an analysis is dropped beside some siblings
* `BadAnalyses.keeps` — an analysis of a list stays, whichever of its copies is meant

## Main statements

* `BadAnalyses.isBad_eq_drops` — the decision on a place as one on an analysis and its siblings
* `BadAnalyses.filter_eq` — the analyses that stay are the ones that the list keeps
* `BadAnalyses.filter_chooses` — order, repetition and emptiness of the choice
-/

namespace Morphology

namespace BadAnalyses

variable {P : Type} [PatternEngine P]

/-! ## Siblings -/

/-- Whether an analysis is dropped beside some siblings. -/
def drops (b : BadAnalyses P) (siblings : List Wordform) (w : Wordform) : Bool :=
  b.unconditional.any (·.conforms w) ||
    b.conditional.any fun (remove, condition) =>
      remove.conforms w && siblings.any condition.conforms

/-- Whether an analysis of a list stays beside the rest of the list. -/
def keeps (b : BadAnalyses P) (analyses : List Wordform) (w : Wordform) : Bool :=
  !b.drops (analyses.erase w) w

variable {b : BadAnalyses P} {analyses siblings siblings' xs ys : List Wordform} {w : Wordform}
  {i : Nat}

theorem drops_iff : b.drops siblings w = true ↔
    (∃ t ∈ b.unconditional, t.conforms w = true) ∨
      ∃ pair ∈ b.conditional, pair.1.conforms w = true ∧
        ∃ other ∈ siblings, pair.2.conforms other = true := by
  simp only [drops, Bool.or_eq_true, List.any_eq_true, Bool.and_eq_true]

/-- With more siblings more is dropped. -/
theorem drops_mono (h : siblings ⊆ siblings') (hdrops : b.drops siblings w = true) :
    b.drops siblings' w = true := by
  rw [drops_iff] at hdrops ⊢
  cases hdrops with
  | inl hmeets => exact .inl hmeets
  | inr hpair =>
    obtain ⟨pair, hmem, hremove, other, hother, hcondition⟩ := hpair
    exact .inr ⟨pair, hmem, hremove, other, h hother, hcondition⟩

theorem drops_congr (h : siblings.Perm siblings') (w : Wordform) :
    b.drops siblings w = b.drops siblings' w := by
  apply Bool.eq_iff_iff.2
  exact ⟨drops_mono h.subset, drops_mono h.symm.subset⟩

/-! ## Places and analyses -/

/-- A place is judged beside the other places: `isBad` at a place says what `drops` says of the
analysis there. -/
theorem isBad_eq_drops (hw : analyses[i]? = some w) :
    b.isBad analyses i = b.drops (analyses.erase w) w := by
  obtain ⟨hlt, hget⟩ := List.getElem?_eq_some_iff.1 hw
  -- Without one place or without one copy, the same analyses are left, in another order.
  have hperm : (analyses.erase w).Perm (analyses.eraseIdx i) := by
    apply List.Perm.cons_inv (a := w)
    have hcons := List.getElem_cons_eraseIdx_perm hlt
    rw [hget] at hcons
    exact (List.perm_cons_erase (List.mem_of_getElem? hw)).symm.trans hcons.symm
  rw [drops_congr hperm w]
  apply Bool.eq_iff_iff.2
  rw [isBad_iff, drops_iff]
  simp only [hw, Option.some.injEq, exists_eq_left', List.mem_eraseIdx_iff_getElem?]
  apply or_congr_right
  refine exists_congr fun pair => and_congr_right fun _ => and_congr_right fun _ => ?_
  -- Another place of the analyses is a place of those left without `i`.
  constructor
  · intro h
    obtain ⟨other, j, hother, hne, hcondition⟩ := h
    exact ⟨other, ⟨j, hne, hother⟩, hcondition⟩
  · intro h
    obtain ⟨other, ⟨j, hne, hother⟩, hcondition⟩ := h
    exact ⟨other, j, hother, hne, hcondition⟩

/-- The analyses that stay are the ones that the list keeps; copies stay or go together. -/
theorem filter_eq (b : BadAnalyses P) (analyses : List Wordform) :
    b.filter analyses = analyses.filter (b.keeps analyses) := by
  have hplaces : analyses.zipIdx.filter (fun place => !b.isBad analyses place.2) =
      analyses.zipIdx.filter (b.keeps analyses ∘ Prod.fst) := by
    refine List.filter_congr fun place hplace => ?_
    exact congrArg (!·) (isBad_eq_drops (List.mem_zipIdx_iff_getElem?.1 hplace))
  show (analyses.zipIdx.filter fun place => !b.isBad analyses place.2).map Prod.fst = _
  rw [hplaces, ← List.filter_map, List.zipIdx_map_fst]

theorem keeps_congr (h : xs.Perm ys) : b.keeps xs = b.keeps ys := by
  funext w
  rw [keeps, keeps, drops_congr (h.erase w)]

/-- What stays beside more siblings stays beside fewer. -/
theorem keeps_of_sublist (h : xs.Sublist ys) (hkeeps : b.keeps ys w = true) :
    b.keeps xs w = true := by
  rw [keeps, Bool.not_eq_true'] at hkeeps ⊢
  rw [← Bool.not_eq_true] at hkeeps ⊢
  exact fun hdrops => hkeeps (drops_mono (h.erase w).subset hdrops)

/-! ## The choice -/

theorem filter_sublist (b : BadAnalyses P) (analyses : List Wordform) :
    (b.filter analyses).Sublist analyses := by
  rw [filter_eq]
  exact List.filter_sublist

theorem mem_filter_iff_keeps :
    w ∈ b.filter analyses ↔ w ∈ analyses ∧ b.keeps analyses w = true := by
  rw [filter_eq, List.mem_filter]

/-- What has stayed is not dropped when it is judged again: its siblings have become fewer. -/
theorem filter_filter (b : BadAnalyses P) (analyses : List Wordform) :
    b.filter (b.filter analyses) = b.filter analyses := by
  rw [filter_eq b (b.filter analyses), List.filter_eq_self]
  intro w hw
  exact keeps_of_sublist (b.filter_sublist analyses) (mem_filter_iff_keeps.1 hw).2

/-- Of a list in another order, the same analyses stay, in that order. -/
theorem filter_of_perm (h : xs.Perm ys) : b.filter ys = ys.filter (· ∈ b.filter xs) := by
  rw [filter_eq]
  refine List.filter_congr fun w hw => ?_
  apply Bool.eq_iff_iff.2
  rw [decide_eq_true_iff, mem_filter_iff_keeps, and_iff_right (h.mem_iff.2 hw), keeps_congr h]

theorem filter_perm (h : xs.Perm ys) : (b.filter xs).Perm (b.filter ys) := by
  rw [filter_eq, filter_eq, keeps_congr h]
  exact h.filter _

theorem filter_ne_nil_iff (b : BadAnalyses P) (analyses : List Wordform) :
    b.filter analyses ≠ [] ↔ ∃ i < analyses.length, b.isBad analyses i = false := by
  constructor
  · intro hne
    obtain ⟨w, hw⟩ := List.exists_mem_of_ne_nil _ hne
    obtain ⟨i, hi, hgood⟩ := mem_filter_iff.1 hw
    exact ⟨i, (List.getElem?_eq_some_iff.1 hi).1, hgood⟩
  · intro h
    obtain ⟨i, hlt, hgood⟩ := h
    exact List.ne_nil_of_mem (mem_filter_iff.2 ⟨i, List.getElem?_eq_getElem hlt, hgood⟩)

/-- **The choice among siblings.**  For all templates and all lists, what `filter` leaves keeps its
order and stays when it is judged again; of the same analyses in another order the same ones stay,
in that order; and something stays just if one place is not `isBad`. -/
theorem filter_chooses (b : BadAnalyses P) (analyses : List Wordform) :
    (b.filter analyses).Sublist analyses ∧
    b.filter (b.filter analyses) = b.filter analyses ∧
    (∀ others, analyses.Perm others →
      b.filter others = others.filter (· ∈ b.filter analyses) ∧
        (b.filter analyses).Perm (b.filter others)) ∧
    (b.filter analyses ≠ [] ↔ ∃ i < analyses.length, b.isBad analyses i = false) := by
  refine ⟨b.filter_sublist analyses, b.filter_filter analyses, ?_, b.filter_ne_nil_iff analyses⟩
  intro others h
  exact ⟨filter_of_perm h, filter_perm h⟩

/-- Two analyses that are each dropped beside the other. -/
def mutualTemplates : BadAnalyses Pattern :=
  (ofValue (.arr [
    .obj [(some "remove", .obj [(some "lex", .str (some "a"))]),
      (some "if_exists", .obj [(some "lex", .str (some "b"))])],
    .obj [(some "remove", .obj [(some "lex", .str (some "b"))]),
      (some "if_exists", .obj [(some "lex", .str (some "a"))])]])).1

theorem filter_chooses_mutualTemplates :
    [sampleAnalysis "a" "N", sampleAnalysis "b" "V", sampleAnalysis "c" "N"].Perm
        [sampleAnalysis "b" "V", sampleAnalysis "a" "N", sampleAnalysis "c" "N"] ∧
      mutualTemplates.filter
        [sampleAnalysis "b" "V", sampleAnalysis "a" "N", sampleAnalysis "c" "N"] =
          [sampleAnalysis "c" "N"] := by
  have hperm : [sampleAnalysis "a" "N", sampleAnalysis "b" "V", sampleAnalysis "c" "N"].Perm
      [sampleAnalysis "b" "V", sampleAnalysis "a" "N", sampleAnalysis "c" "N"] :=
    List.Perm.swap _ _ _
  refine ⟨hperm, ?_⟩
  rw [((filter_chooses mutualTemplates _).2.2.1 _ hperm).1]
  decide +kernel

end BadAnalyses

end Morphology
