import Mathlib.Data.List.Forall2
import Morphology.Proofs.Disambiguation.Rows
import Morphology.Proofs.Trees

/-!
# What a disambiguator can change

Whatever text comes back, analyses are only removed and given other tags.  The cohorts in it belong
to the tokens in their order, as long as there are any.

## Main definitions

* `Retagged` — an analysis with the tags of its reading
* `Restricts` — the analyses of a token, some of them removed

## Main statements

* `ReturnedCohort.restricts_restrict` — what a cohort makes of the analyses of a token
* `ReturnedCohort.readings_eq` — readings stand in the lines of a cohort, or in a surface that looks
  like one
* `Tree.applyStream_restricts` — what any text makes of a tree
-/

namespace Morphology

open ReturnedCohort

/-! ## Tags -/

/-- An analysis with the tags of its reading.  Its own that are among them stand in front. -/
structure Retagged (w : Wordform) (returned : List String) (after : Wordform) : Prop where
  others : after = { w with gramm := after.gramm }
  gramm : ∃ tags, after.gramm = String.intercalate "," tags ∧ (∀ t, t ∈ tags ↔ t ∈ returned) ∧
    (w.tags.map Text.trimBlanks).filter (returned.contains ·) <+: tags

namespace ReturnedCohort

/-- The items of a list stay, and those of the other are added. -/
theorem extend_spec (tags further : List String) :
    tags <+: extend tags further ∧ ∀ t, t ∈ extend tags further ↔ t ∈ tags ∨ t ∈ further := by
  induction further generalizing tags with
  | nil => simp [extend]
  | cons t further ih =>
    have hstep : extend tags (t :: further) =
        extend (if tags.contains t then tags else tags ++ [t]) further := rfl
    rw [hstep]
    obtain ⟨hkept, hmem⟩ := ih (if tags.contains t then tags else tags ++ [t])
    -- The next item may be there already, and is then not added.
    by_cases ht : t ∈ tags
    · simp only [List.contains_eq_mem, ht, decide_true, if_true] at hkept hmem ⊢
      refine ⟨hkept, fun u => (hmem u).trans ?_⟩
      simp only [List.mem_cons]
      constructor
      · tauto
      · rintro (hu | rfl | hu)
        · exact .inl hu
        · exact .inl ht
        · exact .inr hu
    · simp only [List.contains_eq_mem, ht, decide_false, Bool.false_eq_true, if_false]
        at hkept hmem ⊢
      refine ⟨(List.prefix_append _ _).trans hkept, fun u => (hmem u).trans ?_⟩
      simp only [List.mem_append, List.mem_cons, List.not_mem_nil, or_false]
      tauto

theorem extend_of_subset {tags further : List String} (h : ∀ t ∈ further, t ∈ tags) :
    extend tags further = tags := by
  induction further with
  | nil => rfl
  | cons t further ih =>
    obtain ⟨ht, hfurther⟩ := List.forall_mem_cons.1 h
    have hstep : extend tags (t :: further) = extend tags further := by simp [extend, ht]
    rw [hstep, ih hfurther]

theorem retagged_retag (w : Wordform) (returned : List String) :
    Retagged w returned (retag w returned) := by
  obtain ⟨hkept, hmem⟩ :=
    extend_spec ((w.tags.map Text.trimBlanks).filter (returned.contains ·)) returned
  refine ⟨rfl, _, rfl, fun t => (hmem t).trans ?_, hkept⟩
  simp only [List.mem_filter, List.contains_eq_mem, decide_eq_true_eq]
  tauto

end ReturnedCohort

/-! ## The analyses of a token -/

/-- The analyses of a token, some of them removed.  Those with a reading are kept in their order,
with the tags of the first that has their number; without any, a placeholder is left. -/
inductive Restricts (readings : List (Nat × List String)) : List Wordform → List Wordform → Prop
  | kept {analyses after : List Wordform} (hne : after ≠ [])
      (hafter : List.Forall₂
        (fun p w => ∃ returned, readings.lookup p.2 = some returned ∧ Retagged p.1 returned w)
        (analyses.zipIdx.filter fun p => (readings.lookup p.2).isSome) after) :
      Restricts readings analyses after
  | placeholder {first : Wordform} {analyses : List Wordform}
      (hnone : ∀ p ∈ (first :: analyses).zipIdx, readings.lookup p.2 = none) :
      Restricts readings (first :: analyses) [.placeholder first.wf]

namespace ReturnedCohort

/-- The analyses that have a reading, with its tags. -/
def kept (c : ReturnedCohort) (analyses : List Wordform) : List Wordform :=
  analyses.zipIdx.filterMap fun p => (c.readings.lookup p.2).map (retag p.1)

theorem restrict_cons (c : ReturnedCohort) (first : Wordform) (analyses : List Wordform) :
    c.restrict (first :: analyses) =
      if c.isPunctuation then first :: analyses
      else if (c.kept (first :: analyses)).isEmpty then [.placeholder first.wf]
      else c.kept (first :: analyses) :=
  rfl

theorem forall₂_kept (c : ReturnedCohort) (ps : List (Wordform × Nat)) :
    List.Forall₂
      (fun p w => ∃ returned, c.readings.lookup p.2 = some returned ∧ Retagged p.1 returned w)
      (ps.filter fun p => (c.readings.lookup p.2).isSome)
      (ps.filterMap fun p => (c.readings.lookup p.2).map (retag p.1)) := by
  induction ps with
  | nil => exact .nil
  | cons p ps ih =>
    rw [List.filter_cons, List.filterMap_cons]
    -- An analysis without a reading is left out, one with a reading gets its tags.
    cases hlookup : c.readings.lookup p.2 with
    | none => exact ih
    | some returned => exact .cons ⟨returned, hlookup, retagged_retag p.1 returned⟩ ih

/-- What a cohort makes of the analyses of a token. -/
theorem restricts_restrict (c : ReturnedCohort) {analyses : List Wordform} (hne : analyses ≠ []) :
    c.restrict analyses ≠ [] ∧
      (c.isPunctuation = true → c.restrict analyses = analyses) ∧
      (c.isPunctuation = false → Restricts c.readings analyses (c.restrict analyses)) := by
  obtain ⟨first, analyses, rfl⟩ := List.exists_cons_of_ne_nil hne
  rw [restrict_cons]
  cases c.isPunctuation with
  -- A punctuation mark keeps its analyses.
  | true => simp
  | false =>
    by_cases hkept : c.kept (first :: analyses) = []
    · -- No analysis has a reading.
      simp only [hkept, List.isEmpty_nil, if_true, Bool.false_eq_true, if_false, false_implies,
        true_implies, true_and]
      refine ⟨List.cons_ne_nil _ _, .placeholder fun p hp => ?_⟩
      simpa using List.filterMap_eq_nil_iff.1 hkept p hp
    · simp only [List.isEmpty_iff, hkept, if_false, Bool.false_eq_true, false_implies, true_implies,
        true_and]
      exact ⟨hkept, .kept hkept (c.forall₂_kept _)⟩

/-! ## Readings -/

/-- What is read in the surface of a cohort. -/
def surfaceReading (c : ReturnedCohort) : List (Nat × List String) :=
  ((surfaceNumber? c.surface).map fun n => (n, ["\""])).toList

/-- The readings in the lines of a cohort. -/
def lineReadings (c : ReturnedCohort) : List (Nat × List String) :=
  c.lines.filterMap reading?

/-- Readings stand in the lines of a cohort, or in a surface that looks like one. -/
theorem readings_eq {c : ReturnedCohort} (ho : '<' ∉ c.surface) (hc : '>' ∉ c.surface) :
    c.readings = c.surfaceReading ++ c.lineReadings := by
  rw [readings, rows, List.filterMap_cons, reading?_head ho hc, surfaceReading, lineReadings]
  cases surfaceNumber? c.surface <;> rfl

end ReturnedCohort

theorem not_mem_of_surfaceEnd? {text surface rest : List Char}
    (h : surfaceEnd? text = some (surface, rest)) : '<' ∉ surface ∧ '>' ∉ surface := by
  fun_induction surfaceEnd? text generalizing surface with
  | case1 rest =>
    obtain ⟨rfl, -⟩ := Prod.mk.inj (Option.some.inj h)
    simp
  | case2 => cases h
  | case3 => cases h
  | case4 => cases h
  | case5 c rest hend ho hc ih =>
    obtain ⟨⟨s, r⟩, hsome, heq⟩ := Option.map_eq_some_iff.1 h
    obtain ⟨rfl, rfl⟩ := Prod.mk.inj heq
    -- One more character of the surface is no bracket.
    obtain ⟨hno, hnc⟩ := ih hsome
    refine ⟨?_, ?_⟩ <;> rw [List.mem_cons, not_or]
    · exact ⟨fun heq => ho heq.symm, hno⟩
    · exact ⟨fun heq => hc heq.symm, hnc⟩

/-- The surface of a cohort has no brackets. -/
theorem not_mem_surface {text : List Char} {c : ReturnedCohort} (h : c ∈ returnedCohorts text) :
    '<' ∉ c.surface ∧ '>' ∉ c.surface := by
  fun_induction returnedCohorts text with
  | case1 => cases h
  | case2 d text block rest hat this ih =>
    rcases List.mem_cons.1 h with rfl | h
    · unfold cohortAt? at hat
      split at hat
      · -- The cohort found here has its surface from `surfaceEnd?`.
        obtain ⟨⟨surface, r⟩, hsome, heq⟩ := Option.map_eq_some_iff.1 hat
        obtain ⟨rfl, -⟩ := Prod.mk.inj heq
        exact not_mem_of_surfaceEnd? hsome
      · cases hat
    · exact ih h
  | case3 d text hat ih => exact ih h

/-! ## Trees -/

/-- The cohort that a leaf takes: the one behind those of the leaves in front that have analyses. -/
def cohortOf? (cohorts : List ReturnedCohort) (leaves : List (List Wordform)) (j : Nat) :
    Option ReturnedCohort :=
  cohorts[(leaves.take j).countP (!·.isEmpty)]?

theorem getElem?_mapAccum_takeCohort {cohorts : List ReturnedCohort} {leaves : List (List Wordform)}
    {j : Nat} {analyses : List Wordform} (h : leaves[j]? = some analyses) :
    (mapAccum takeCohort cohorts leaves).2[j]? =
      some (if analyses.isEmpty then analyses
        else ((cohortOf? cohorts leaves j).map (·.restrict analyses)).getD analyses) := by
  induction leaves generalizing cohorts j with
  | nil => cases h
  | cons leaf leaves ih =>
    cases j with
    | zero =>
      obtain rfl := Option.some.inj h
      -- The first leaf takes the first cohort, unless it has no analyses.
      cases cohorts <;> cases leaf <;> rfl
    | succ j =>
      rw [mapAccum, List.getElem?_cons_succ, ih h]
      cases leaf with
      | nil => simp [takeCohort, cohortOf?]
      -- A leaf with analyses takes a cohort from those behind it, one without takes none.
      | cons w ws => cases cohorts <;> simp [takeCohort, cohortOf?]

/-- What is left of the analyses of a token: all of them if there is no cohort for it, or that of a
punctuation mark, and else those with a reading. -/
def RestrictedBy (c : Option ReturnedCohort) (analyses after : List Wordform) : Prop :=
  match c with
  | none => after = analyses
  | some c =>
    if c.isPunctuation then after = analyses
    else Restricts (c.surfaceReading ++ c.lineReadings) analyses after

namespace Tree

/-- Whatever text comes back, `applyStream` keeps the nesting, and analyses are only removed and
given other tags: what is left of a leaf is `RestrictedBy` the cohort that the leaf takes. -/
theorem applyStream_restricts (t : Tree (List Wordform)) (stream : String) :
    (t.applyStream stream).map (fun _ => ()) = t.map (fun _ => ()) ∧
      ∀ (j : Nat) (analyses : List Wordform), t.leaves[j]? = some analyses →
        ∃ after, (t.applyStream stream).leaves[j]? = some after ∧ (after = [] ↔ analyses = []) ∧
          (analyses ≠ [] →
            RestrictedBy (cohortOf? (tokenCohorts stream) t.leaves j) analyses after) := by
  simp only [leaves_eq_flatten]
  refine ⟨map_traverse (k := fun _ => ()) (fun _ _ => rfl) t _, fun j analyses hj => ?_⟩
  have hflatten : (t.applyStream stream).flatten =
      (mapAccum takeCohort (tokenCohorts stream) t.flatten).2 :=
    congrArg Prod.snd (flatten_traverse t (tokenCohorts stream))
  rw [hflatten, getElem?_mapAccum_takeCohort hj]
  refine ⟨_, rfl, ?_⟩
  by_cases hempty : analyses = []
  · simp [hempty]
  · simp only [List.isEmpty_iff, hempty, if_false, iff_false, ne_eq, not_false_eq_true,
      true_implies]
    cases hc : cohortOf? (tokenCohorts stream) t.flatten j with
    -- No cohort is left for the leaf, which stays as it is.
    | none => exact ⟨hempty, rfl⟩
    | some c =>
      obtain ⟨hne, hpunct, hrestricts⟩ := c.restricts_restrict hempty
      refine ⟨hne, ?_⟩
      have hmem : c ∈ tokenCohorts stream := List.mem_of_getElem? hc
      -- The surface of a cohort has no brackets, so what is read is either in the lines or in the
      -- surface.
      obtain ⟨ho, hcl⟩ := not_mem_surface (List.mem_of_mem_filter hmem)
      rw [readings_eq ho hcl] at hrestricts
      cases hp : c.isPunctuation with
      | true => simpa [RestrictedBy, hp] using hpunct hp
      | false => simpa [RestrictedBy, hp] using hrestricts hp

end Tree

/-! ## Sample -/

/-- Two analyses of a token; the second has an empty tag. -/
def sampleSaw : List Wordform :=
  [{ Wordform.placeholder "saw" with headword := "see", gramm := "V,pst" },
    { Wordform.placeholder "saw" with headword := "saw", gramm := "N,,sg" }]

/-- A sentence with an analysed token, a mark and a token without even a placeholder, a group
without items, and a token with a placeholder. -/
def sampleTokens : Tree (List Wordform) :=
  .group [.group [.leaf sampleSaw, .leaf [.placeholder ","], .leaf []], .group [],
    .leaf [.placeholder "a<b"]]

/-- A text that keeps the second reading of the first token. -/
def sampleReturned : String :=
  "\"<saw>\"\n\t\"saw\" <ana_1> sg Det\n\"<,>\"\n\t\",\" punct\n"

namespace Tree

theorem applyStream_restricts_sampleTokens :
    ∃ after, (sampleTokens.applyStream sampleReturned).leaves[0]? = some after ∧
      (after = [] ↔ sampleSaw = []) ∧ (sampleSaw ≠ [] →
        RestrictedBy (cohortOf? (tokenCohorts sampleReturned) sampleTokens.leaves 0) sampleSaw
          after) :=
  (applyStream_restricts sampleTokens sampleReturned).2 0 sampleSaw (by decide +kernel)

end Tree

/-! ## A surface that looks like a number -/

/-- An analysis whose surface looks like the number of a reading. -/
def sampleNumbered : Wordform :=
  { Wordform.placeholder "ana_0" with headword := "x", gramm := "N" }

namespace Tree

/-- Tags may come from a surface instead of the lines of a cohort. -/
theorem not_restricts_lineReadings :
    ¬ ∀ (t : Tree (List Wordform)) (stream : String) (j : Nat) (analyses after : List Wordform)
      (c : ReturnedCohort), t.leaves[j]? = some analyses →
        (t.applyStream stream).leaves[j]? = some after →
        cohortOf? (tokenCohorts stream) t.leaves j = some c →
        after = analyses ∨ Restricts c.lineReadings analyses after := by
  intro h
  -- The surface looks like a reading whose only tag is a quotation mark.
  have hread := h (.leaf [sampleNumbered]) "\"<ana_0>\"\n\t\"x\" <ana_0> N\n" 0 [sampleNumbered]
    [{ sampleNumbered with gramm := "\"" }] ⟨"ana_0".toList, ["\"x\" <ana_0> N".toList]⟩
    (by decide +kernel) (by decide +kernel) (by decide +kernel)
  have hlines : lineReadings ⟨"ana_0".toList, ["\"x\" <ana_0> N".toList]⟩ = [(0, ["N"])] := by
    decide +kernel
  rw [hlines] at hread
  rcases hread with heq | hrestricts
  · exact absurd heq (by decide)
  · generalize hreturned : [{ sampleNumbered with gramm := "\"" }] = after at hrestricts
    cases hrestricts with
    | placeholder _ =>
      exact absurd hreturned (by decide)
    -- The reading in the line would have the tag `N` in front, and the analysis has another one.
    | kept hne hafter =>
      have hfilter : ([sampleNumbered].zipIdx.filter fun p =>
          (List.lookup p.2 [(0, ["N"])]).isSome) = [(sampleNumbered, 0)] := by
        decide
      rw [hfilter, ← hreturned] at hafter
      obtain ⟨returned, hlookup, hretagged⟩ := (List.forall₂_cons.1 hafter).1
      obtain rfl : ["N"] = returned := Option.some.inj hlookup
      obtain ⟨tags, hgramm, -, hkept⟩ := hretagged.gramm
      have hown : (sampleNumbered.tags.map Text.trimBlanks).filter (["N"].contains ·) = ["N"] := by
        decide
      rw [hown] at hkept
      obtain ⟨further, rfl⟩ := hkept
      have hfirst : (String.intercalate "," (["N"] ++ further)).toList.head? = some 'N' := by
        rw [String.toList_intercalate]
        cases further with
        | nil => rfl
        | cons t further => simp [List.intercalate_cons_cons]
      rw [← hgramm] at hfirst
      exact absurd hfirst (by decide)

end Tree

end Morphology
