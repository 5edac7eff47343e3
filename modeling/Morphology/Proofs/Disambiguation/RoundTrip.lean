import Morphology.Proofs.Disambiguation.Restriction

/-!
# A stream read back

If a disambiguator gives back what it was given, the analyses stay as they are.  Every token comes
back as one cohort, whatever its texts are, and its readings with their numbers and tags.

Two kinds of surfaces are mistaken for something else: the one that closes a group, and those that
look like the number of a reading.

## Main definitions

* `Writable` — what analyses keep to in a stream
* `RoundTrips` — such analyses, with a surface that is not mistaken for something else
* `afterRoundTrip` — the analyses of a token as they come back
* `ComesBack` — the cohorts that a text is read as are taken by what it was written for

## Main statements

* `exists_reads_cohort` — a token comes back as a cohort, with its analyses
* `Tree.comesBack_inside` — cohorts come back in the order of the leaves
* `Tree.applyStream_cohortStream` — a tree comes back from its own stream
-/

namespace Morphology

open Cohort ReturnedCohort

/-! ## Analyses that are written and read -/

/-- What the analyses of a token keep to in a stream. -/
structure Writable (analyses : List Wordform) : Prop where
  headwords : ∀ w ∈ analyses, '\r' ∉ w.headword.toList
  tags : ∀ w ∈ analyses, w.HasPlainTags
  /-- A single wordform without a lemma has nothing but a surface. -/
  placeholder : ∀ w ∈ analyses, analyses.length = 1 → w.isAnalyzed = false → w = .placeholder w.wf

/-- Whether the surface of a token is not mistaken for something else. -/
structure RoundTrips (analyses : List Wordform) : Prop extends Writable analyses where
  surface_ne : ∀ w ∈ analyses.head?, w.wf ≠ groupEnd
  /-- A surface looks like the number of a reading only if there is no such reading. -/
  length_le : ∀ w ∈ analyses.head?, ∀ n ∈ surfaceNumber? w.wf.toList, analyses.length ≤ n

/-- A wordform without empty tags. -/
def Wordform.withoutEmptyTags (w : Wordform) : Wordform :=
  { w with gramm := String.intercalate "," w.tags }

/-- The analyses of a token as they come back.  A lemma may make them look like those of a
punctuation mark, which stay as they are. -/
def afterRoundTrip (analyses : List Wordform) : List Wordform :=
  if analyses.any (·.isTakenForMark) then analyses
  else analyses.map (·.withoutEmptyTags)

/-! ## Tags -/

/-- An analysis takes its own tags without change. -/
theorem retag_tags {w : Wordform} (h : w.HasPlainTags) : retag w w.tags = w.withoutEmptyTags := by
  have htrim : w.tags.map Text.trimBlanks = w.tags := by
    conv_rhs => rw [← List.map_id w.tags]
    exact List.map_congr_left fun t ht => trimBlanks_of_not_blank (h t ht)
  rw [retag, htrim, List.filter_eq_self.2 (by simp), extend_of_subset (by simp)]
  rfl

/-! ## Numbers -/

theorem lookup_zipIdx (ws : List Wordform) (k i : Nat) :
    ((ws.zipIdx k).map fun p => (p.2, p.1.tags)).lookup (k + i) = ws[i]?.map (·.tags) := by
  induction ws generalizing k i with
  | nil => rfl
  | cons w ws ih =>
    rw [List.zipIdx_cons, List.map_cons, List.lookup_cons]
    cases i with
    | zero => simp
    | succ i =>
      -- The number of a later analysis is not that of the first.
      have hnext : k + (i + 1) = k + 1 + i := by omega
      have hne : (k + 1 + i == k) = false := by
        rw [beq_eq_false_iff_ne]
        omega
      rw [hnext, hne, List.getElem?_cons_succ]
      exact ih (k + 1) i

/-- A surface that is found again as a number is that number. -/
theorem surfaceNumber?_of_shown {surface : String} {n : Nat}
    (h : surfaceNumber? (shown surface) = some n) : surfaceNumber? surface.toList = some n := by
  -- A number is written with letters, an underscore and digits, none of which is shown otherwise.
  have hplain : ∀ c ∈ shown surface, isPlain c = true := by
    rw [surfaceNumber?] at h
    split at h
    · rename_i hcond
      simp only [Bool.and_eq_true, List.all_eq_true] at hcond
      obtain ⟨digits, hdigits⟩ := List.isPrefixOf_iff_prefix.1 hcond.1.1
      rw [← hdigits, List.drop_left] at hcond
      intro c hc
      rw [← hdigits] at hc
      rcases List.mem_append.1 hc with hc | hc
      · have hall : ∀ c ∈ "ana_".toList, isPlain c = true := by decide
        exact hall c hc
      · exact isPlain_of_isDigit (hcond.2 c hc)
    · cases h
  rw [toList_eq_of_shown hplain, h]

/-! ## A token with its analyses -/

/-- The cohort of a token with its analyses. -/
def ofAnalyses (surface : String) (analyses : List Wordform) : ReturnedCohort :=
  ⟨shown surface, analyses.zipIdx.map fun p => rowOf p.1 p.2⟩

theorem surface_ofAnalyses (surface : String) (analyses : List Wordform) :
    (ofAnalyses surface analyses).surface = shown surface := by
  rw [ofAnalyses]

theorem any_zipIdx (ws : List Wordform) (p : Wordform → Bool) :
    (ws.zipIdx.any fun q => p q.1) = ws.any p := by
  conv_rhs => rw [← List.zipIdx_map_fst 0 ws, List.any_map]
  rfl

theorem isPunctuation_ofAnalyses (surface : String) (analyses : List Wordform) :
    (ofAnalyses surface analyses).isPunctuation = analyses.any (·.isTakenForMark) := by
  have hlines : (ofAnalyses surface analyses).lines.any (Text.hasInfix "\" punct".toList) =
      analyses.any (·.isTakenForMark) := by
    simp only [ofAnalyses, List.any_map, Function.comp_def, hasInfix_rowOf]
    exact any_zipIdx analyses _
  rw [ReturnedCohort.isPunctuation, rows, List.any_cons, hlines, ofAnalyses, hasInfix_head,
    Bool.false_or]

theorem lineReadings_ofAnalyses (surface : String) {analyses : List Wordform}
    (h : ∀ w ∈ analyses, w.HasPlainTags) :
    (ofAnalyses surface analyses).lineReadings =
      analyses.zipIdx.map fun p => (p.2, p.1.tags) := by
  rw [lineReadings, ofAnalyses, List.filterMap_map, ← List.filterMap_eq_map]
  refine List.filterMap_congr fun p hp => ?_
  rw [Function.comp_apply, Function.comp_apply,
    reading?_rowOf (h p.1 (List.fst_mem_of_mem_zipIdx hp))]

/-- A surface that is not mistaken for something else gives no reading that an analysis has. -/
theorem lookup_surfaceReading {w : Wordform} {ws : List Wordform} (h : RoundTrips (w :: ws))
    {c : ReturnedCohort} (hc : c.surface = shown w.wf) {i : Nat} (hi : i < (w :: ws).length) :
    c.surfaceReading.lookup i = none := by
  rw [surfaceReading, hc]
  cases hnumber : surfaceNumber? (shown w.wf) with
  | none => rfl
  | some n =>
    -- The number of the surface is that of no analysis of the token.
    have hle := h.length_le w rfl n (surfaceNumber?_of_shown hnumber)
    have hne : (i == n) = false := by
      rw [beq_eq_false_iff_ne]
      omega
    rw [Option.map_some, Option.toList_some, List.lookup_cons, hne]
    rfl

/-- The analyses of a token keep their readings. -/
theorem restrict_ofAnalyses {w : Wordform} {ws : List Wordform} (h : RoundTrips (w :: ws)) :
    (ofAnalyses w.wf (w :: ws)).restrict (w :: ws) = afterRoundTrip (w :: ws) := by
  have hsurface := surface_ofAnalyses w.wf (w :: ws)
  have hreadings : (ofAnalyses w.wf (w :: ws)).readings = _ :=
    readings_eq (hsurface ▸ not_mem_shown w.wf '<' (by simp))
      (hsurface ▸ not_mem_shown w.wf '>' (by simp))
  rw [lineReadings_ofAnalyses w.wf h.tags] at hreadings
  -- An analysis finds its own reading in the lines, as the surface gives none for its number.
  have hkept : (ofAnalyses w.wf (w :: ws)).kept (w :: ws) = (w :: ws).map (·.withoutEmptyTags) := by
    conv_rhs => rw [← List.zipIdx_map_fst 0 (w :: ws), List.map_map, ← List.filterMap_eq_map]
    refine List.filterMap_congr fun p hp => ?_
    have hget : (w :: ws)[p.2]? = some p.1 := List.mem_zipIdx_iff_getElem?.1 hp
    have hlines := lookup_zipIdx (w :: ws) 0 p.2
    rw [Nat.zero_add, hget] at hlines
    obtain ⟨hi, -⟩ := List.getElem?_eq_some_iff.1 hget
    rw [hreadings, List.lookup_append, lookup_surfaceReading h hsurface hi, Option.none_or, hlines,
      Option.map_some, Option.map_some, retag_tags (h.tags p.1 (List.mem_of_getElem? hget))]
    rfl
  rw [restrict_cons, isPunctuation_ofAnalyses, afterRoundTrip, hkept]
  rfl

/-! ## A token with a placeholder -/

theorem withoutEmptyTags_placeholder (surface : String) :
    (Wordform.placeholder surface).withoutEmptyTags = .placeholder surface := by
  have htags : (Wordform.placeholder surface).tags = [] := by
    have hempty : splitTags "" = [] := by decide
    exact hempty
  rw [Wordform.withoutEmptyTags, htags]
  rfl

theorem afterRoundTrip_placeholder (surface : String) :
    afterRoundTrip [.placeholder surface] = [.placeholder surface] := by
  have hmark : (Wordform.placeholder surface).isTakenForMark = false := by
    have hempty : " punct".toList.isPrefixOf "".toList = false := by decide
    exact hempty
  simp [afterRoundTrip, hmark, withoutEmptyTags_placeholder]

/-- A placeholder stays as it is. -/
theorem restrict_placeholder {c : ReturnedCohort} {surface : String}
    (h : RoundTrips [.placeholder surface]) (hsurface : c.surface = shown surface)
    (hlines : ∀ l ∈ c.lines, '<' ∉ l) :
    c.restrict [.placeholder surface] = [.placeholder surface] := by
  -- The lines have no opening bracket, so there are no readings in them.
  have hnone : c.lineReadings = [] :=
    List.filterMap_eq_nil_iff.2 fun l hl => reading?_of_not_mem (hlines l hl)
  have hreadings : c.readings = _ :=
    readings_eq (hsurface ▸ not_mem_shown surface '<' (by simp))
      (hsurface ▸ not_mem_shown surface '>' (by simp))
  rw [hnone, List.append_nil] at hreadings
  -- The placeholder has the number zero, for which nothing is read.
  have hkept : c.kept [.placeholder surface] = [] := by
    refine List.filterMap_eq_nil_iff.2 fun p hp => ?_
    obtain rfl : p = (.placeholder surface, 0) := by simpa using hp
    rw [hreadings, lookup_surfaceReading h hsurface (by simp), Option.map_none]
  rw [restrict_cons, hkept]
  split <;> rfl

/-! ## The cohort of a token -/

theorem toList_headLine (surface : String) :
    (headLine surface).toList = '"' :: '<' :: (surface.toList ++ ['>', '"', '\n']) := by
  simp [headLine]

/-- The lines of a token with analyses. -/
theorem toList_cohort {w : Wordform} {ws : List Wordform} (h : ws = [] → w.isAnalyzed = true) :
    (cohort (w :: ws)).toList = '"' :: '<' :: ((escape w.wf).toList ++ '>' :: '"' :: '\n' ::
      ((w :: ws).zipIdx.map fun p => rowOf p.1 p.2).flatMap fun r => '\t' :: (r ++ ['\n'])) := by
  have hlines (ps : List (Wordform × Nat)) :
      (String.join (ps.map fun p => readingLine p.1 p.2)).toList =
        (ps.map fun p => rowOf p.1 p.2).flatMap fun r => '\t' :: (r ++ ['\n']) := by
    rw [String.toList_join, List.flatMap_map, List.flatMap_map]
    exact List.flatMap_congr fun p _ => toList_readingLine p.1 p.2
  have hcohort : cohort (w :: ws) = headLine (escape w.wf) ++
      String.join ((w :: ws).zipIdx.map fun p => readingLine p.1 p.2) := by
    -- A single analysis without a lemma is written in another way.
    cases ws with
    | nil => simp [cohort, h rfl, String.join]
    | cons w' ws => rfl
  rw [hcohort, String.toList_append, toList_headLine, hlines]
  simp

/-- A surface that is not mistaken for something else closes no group. -/
theorem closesGroup_eq_false {c : ReturnedCohort} {surface : String}
    (hc : c.surface = shown surface) (h : surface ≠ groupEnd) : c.closesGroup = false := by
  rw [closesGroup, beq_eq_false_iff_ne, hc]
  intro heq
  have hplain : ∀ c ∈ groupEnd.toList, isPlain c = true := by decide
  rw [← heq] at hplain
  refine h (String.toList_inj.1 ?_)
  rw [toList_eq_of_shown hplain, heq]

/-- The line of a punctuation mark: as far as it goes, it has no readings. -/
theorem exists_reads_mark (surface : String) :
    ∃ rows, (∀ r ∈ rows, '<' ∉ r) ∧
      Reads ('"' :: '<' :: ((escape surface).toList ++ '>' :: '"' :: '\n' ::
          '\t' :: '"' :: ((escape surface).toList ++ "\" punct\n".toList)))
        ([⟨shown surface, rows⟩].filter (!·.closesGroup)) := by
  -- No bracket is shown in the line of a mark.
  have hopen : '<' ∉ '\t' :: '"' :: (shown surface ++ "\" punct\n".toList) := by
    simpa using not_mem_shown surface '<' (by simp)
  have hend : ∀ c ∈ ('\t' :: '"' :: (shown surface ++ "\" punct\n".toList)).getLast?, c = '\n' := by
    simp [List.getLast?_cons, List.getLast?_append]
  obtain ⟨rows, passed, hrows, hread⟩ := exists_tabbedLines hopen hend
  refine ⟨rows, hrows, Reads.of_head (not_mem_shown surface '<' (by simp))
    (not_mem_shown surface '>' (by simp)) fun rest hrest => ⟨by simp [Unbroken], ?_⟩⟩
  -- The line breaks of the text are kept, and what is shown has none.
  have hnormal : normal ('\t' :: '"' :: ((escape surface).toList ++ "\" punct\n".toList) ++ rest) =
      '\t' :: '"' :: (shown surface ++ "\" punct\n".toList) ++ normal rest := by
    have hassoc (end' : List Char) : "\" punct\n".toList ++ end' =
        '"' :: (" punct".toList ++ '\n' :: end') := rfl
    simp only [List.cons_append, List.append_assoc, hassoc]
    rw [normal_cons (by decide) (by decide), normal_cons (by decide) (by decide),
      normal_append _ (by decide) (by decide), normal_cons (by decide) (by decide),
      normal_append_of_not_mem (by decide) (by decide), normal_break hrest.unbroken, shown]
  rw [hnormal]
  exact ⟨_, hread (normal rest) hrest.normal.head?_ne⟩

/-- A cohort is one of a token if its surface closes no group. -/
theorem Reads.token {text : List Char} {c : ReturnedCohort} {surface : String}
    (h : Reads text ([c].filter (!·.closesGroup))) (hc : c.surface = shown surface)
    (hne : surface ≠ groupEnd) : Reads text [c] := by
  rwa [List.filter_cons_of_pos (by rw [closesGroup_eq_false hc hne]; rfl), List.filter_nil] at h

theorem toList_cohort_placeholder (surface : String) :
    (cohort [.placeholder surface]).toList =
      '"' :: '<' :: ((escape surface).toList ++ '>' :: '"' :: '\n' ::
        if isMark surface then '\t' :: '"' :: ((escape surface).toList ++ "\" punct\n".toList)
        else []) := by
  have hcohort : cohort [.placeholder surface] =
      if isMark surface then
        headLine (escape surface) ++ "\t\"" ++ escape surface ++ "\" punct\n"
      else headLine (escape surface) := rfl
  rw [hcohort]
  cases isMark surface <;> simp [headLine]

/-- A token with a placeholder comes back as a cohort without readings. -/
theorem exists_reads_placeholder {surface : String} (h : RoundTrips [.placeholder surface]) :
    ∃ c, Reads (cohort [.placeholder surface]).toList [c] ∧
      c.restrict [.placeholder surface] = [.placeholder surface] := by
  have hne : surface ≠ groupEnd := h.surface_ne _ rfl
  have hsurface (rows : List (List Char)) :
      ReturnedCohort.surface ⟨shown surface, rows⟩ = shown surface := by simp only
  rw [toList_cohort_placeholder]
  cases isMark surface with
  | true =>
    obtain ⟨rows, hrows, hreads⟩ := exists_reads_mark surface
    exact ⟨⟨shown surface, rows⟩, hreads.token (hsurface rows) hne,
      restrict_placeholder h (hsurface rows) hrows⟩
  | false =>
    have hreads := @Reads.of_rows _ [] (not_mem_shown surface '<' (by simp))
      (not_mem_shown surface '>' (by simp)) (by simp)
    exact ⟨⟨shown surface, []⟩, hreads.token (hsurface []) hne,
      restrict_placeholder h (hsurface []) (by simp)⟩

/-- A token comes back as a cohort, with its analyses. -/
theorem exists_reads_cohort {w : Wordform} {ws : List Wordform} (h : RoundTrips (w :: ws)) :
    ∃ c, Reads (cohort (w :: ws)).toList [c] ∧ c.restrict (w :: ws) = afterRoundTrip (w :: ws) := by
  -- The token has analyses that are written in lines.
  by_cases hanalyzed : ws = [] → w.isAnalyzed = true
  · have hrows : ∀ r ∈ (w :: ws).zipIdx.map fun p => rowOf p.1 p.2, '\n' ∉ r ∧ '\r' ∉ r := by
      intro r hr
      obtain ⟨p, hp, rfl⟩ := List.mem_map.1 hr
      have hmem : p.1 ∈ w :: ws := List.fst_mem_of_mem_zipIdx hp
      have hrow := not_mem_rowOf (h.tags p.1 hmem) (h.headwords p.1 hmem) p.2
      exact ⟨hrow '\n' (by simp), hrow '\r' (by simp)⟩
    have hreads := Reads.of_rows (not_mem_shown w.wf '<' (by simp))
      (not_mem_shown w.wf '>' (by simp)) hrows
    rw [← toList_cohort hanalyzed] at hreads
    exact ⟨ofAnalyses w.wf (w :: ws),
      hreads.token (surface_ofAnalyses w.wf _) (h.surface_ne w rfl), restrict_ofAnalyses h⟩
  · -- Its only analysis has no lemma, and is then a placeholder.
    obtain ⟨rfl, hw⟩ := Classical.not_imp.1 hanalyzed
    have hw : w.isAnalyzed = false := by simpa using hw
    obtain ⟨surface, rfl⟩ : ∃ surface, w = .placeholder surface :=
      ⟨w.wf, h.placeholder w (by simp) rfl hw⟩
    rw [afterRoundTrip_placeholder]
    exact exists_reads_placeholder h

/-! ## Trees -/

/-- Something comes back from a text: the text is read as some cohorts, and these are taken. -/
def ComesBack {α : Type} (text : String)
    (takes : List ReturnedCohort → List ReturnedCohort × α) (after : α) : Prop :=
  ∃ cs, Reads text.toList cs ∧ ∀ rest, takes (cs ++ rest) = (rest, after)

theorem reads_groupEnd : Reads (headLine groupEnd).toList [] := by
  have hreads := @Reads.of_rows groupEnd.toList [] (by decide) (by decide) (by simp)
  rw [toList_headLine]
  exact hreads

/-- The cohort of a leaf is taken by it; a leaf without analyses has none and takes none. -/
theorem comesBack_leaf {analyses : List Wordform} (h : RoundTrips analyses) :
    ComesBack (cohort analyses) (fun cs => takeCohort cs analyses) (afterRoundTrip analyses) := by
  cases analyses with
  | nil => exact ⟨[], Reads.nil, fun _ => rfl⟩
  | cons w ws =>
    obtain ⟨c, hreads, hrestrict⟩ := exists_reads_cohort h
    exact ⟨[c], hreads, fun rest => by rw [← hrestrict]; rfl⟩

namespace Tree

/-- Cohorts come back in the order of the leaves; those that close groups are left out. -/
theorem comesBack_inside : (t : Tree (List Wordform)) → (∀ a ∈ t.flatten, RoundTrips a) →
    ComesBack t.cohortsInside (fun cs => t.traverse takeCohort cs) (t.map afterRoundTrip)
  | .leaf analyses, h => by
    -- The cohort of the leaf is read, and the leaf takes it.
    obtain ⟨cs, hreads, htakes⟩ := comesBack_leaf (h analyses (List.mem_singleton.2 rfl))
    exact ⟨cs, hreads, fun rest => congrArg (fun s => (s.1, leaf s.2)) (htakes rest)⟩
  | .group [], _ => ⟨[], Reads.nil, fun _ => rfl⟩
  | .group (t :: rest), h => by
    obtain ⟨cs, hreads, htakes⟩ := all (t :: rest) h
    refine ⟨cs, ?_, fun rest => congrArg (fun s => (s.1, group s.2)) (htakes rest)⟩
    rw [cohortsInside, String.toList_append, ← List.append_nil cs]
    -- The cohort that closes the group is read and left out.
    exact hreads.append reads_groupEnd
where
  all : (ts : List (Tree (List Wordform))) → (∀ a ∈ flatten.flattenAll ts, RoundTrips a) →
      ComesBack (cohortsInside.cohortsOf ts) (fun cs => traverse.traverseAll takeCohort cs ts)
        (map.mapAll afterRoundTrip ts)
    | [], _ => ⟨[], Reads.nil, fun _ => rfl⟩
    | t :: rest, h => by
      obtain ⟨cs, hreads, htakes⟩ := comesBack_inside t fun a ha => h a (List.mem_append_left _ ha)
      obtain ⟨ds, hrest, htakesRest⟩ := all rest fun a ha => h a (List.mem_append_right _ ha)
      -- The leaves of the first tree take their cohorts, and leave those behind to the others.
      refine ⟨cs ++ ds, ?_, fun behind => ?_⟩
      · rw [cohortsInside.cohortsOf, String.toList_append]
        exact hreads.append hrest
      · have ht := htakes (ds ++ behind)
        have hts := htakesRest behind
        simp only at ht hts
        simp only [traverse.traverseAll, List.append_assoc, ht, hts, map.mapAll]

/-- A tree comes back from its own `cohortStream`: the nesting and the analyses of every leaf stay,
with their tags written `withoutEmptyTags`. -/
theorem applyStream_cohortStream {t : Tree (List Wordform)} (h : ∀ a ∈ t.leaves, RoundTrips a) :
    t.applyStream t.cohortStream = t.map afterRoundTrip := by
  rw [leaves_eq_flatten] at h
  -- The outermost group is not closed, so its items come back without a cohort for it.
  have hback : ComesBack t.cohortStream (fun cs => t.traverse takeCohort cs)
      (t.map afterRoundTrip) := by
    cases t with
    | leaf analyses => exact comesBack_inside (.leaf analyses) h
    | group items =>
      obtain ⟨cs, hreads, htakes⟩ := comesBack_inside.all items h
      exact ⟨cs, hreads, fun rest => congrArg (fun s => (s.1, group s.2)) (htakes rest)⟩
  obtain ⟨cs, hreads, htakes⟩ := hback
  have hnone : tokensIn [] = [] := by simp [tokensIn, normal_nil, returnedCohorts]
  have hcohorts : tokenCohorts t.cohortStream = cs :=
    calc tokenCohorts t.cohortStream
      _ = tokensIn (t.cohortStream.toList ++ []) := by rw [tokenCohorts_eq, List.append_nil]
      _ = cs ++ tokensIn [] := hreads.reads [] (by simp [Fresh])
      _ = cs := by rw [hnone, List.append_nil]
  -- All cohorts are taken, and none is left.
  have htaken : t.traverse takeCohort (cs ++ []) = ([], t.map afterRoundTrip) := htakes []
  rw [applyStream, hcohorts, ← List.append_nil cs, htaken]

end Tree

/-! ## Samples -/

instance (w : Wordform) : Decidable w.HasPlainTags :=
  inferInstanceAs (Decidable (∀ t ∈ w.tags, ∀ c ∈ t.toList, Text.isBlank c = false))

theorem writable_iff {analyses : List Wordform} :
    Writable analyses ↔ (∀ w ∈ analyses, '\r' ∉ w.headword.toList) ∧
      (∀ w ∈ analyses, w.HasPlainTags) ∧
      ∀ w ∈ analyses, analyses.length = 1 → w.isAnalyzed = false → w = .placeholder w.wf :=
  ⟨fun h => ⟨h.headwords, h.tags, h.placeholder⟩, fun h => ⟨h.1, h.2.1, h.2.2⟩⟩

theorem roundTrips_iff {analyses : List Wordform} :
    RoundTrips analyses ↔ Writable analyses ∧ (∀ w ∈ analyses.head?, w.wf ≠ groupEnd) ∧
      ∀ w ∈ analyses.head?, ∀ n ∈ surfaceNumber? w.wf.toList, analyses.length ≤ n :=
  ⟨fun h => ⟨h.toWritable, h.surface_ne, h.length_le⟩, fun h => ⟨h.1, h.2.1, h.2.2⟩⟩

instance (analyses : List Wordform) : Decidable (Writable analyses) :=
  decidable_of_iff' _ writable_iff

instance (analyses : List Wordform) : Decidable (RoundTrips analyses) :=
  decidable_of_iff' _ roundTrips_iff

namespace Tree

/-- In a sentence with a mark, an empty token, an empty group and a surface with a bracket, only the
empty tag is lost. -/
theorem applyStream_cohortStream_sampleTokens :
    (∀ a ∈ sampleTokens.leaves, RoundTrips a) ∧
      sampleTokens.applyStream sampleTokens.cohortStream = sampleTokens.map afterRoundTrip ∧
      (sampleTokens.map afterRoundTrip).leaves.map (·.map (·.gramm)) =
        [["V,pst", "N,sg"], [""], [], [""]] :=
  ⟨by decide +kernel, applyStream_cohortStream (by decide +kernel), by decide +kernel⟩

/-- Not every surface comes back: one that looks like the number of a reading gives its own tag. -/
theorem not_applyStream_cohortStream :
    ¬ ∀ t : Tree (List Wordform), (∀ a ∈ t.leaves, Writable a) →
      t.applyStream t.cohortStream = t.map (·.map (·.withoutEmptyTags)) := by
  intro h
  have hnumbered := h (.leaf [sampleNumbered]) (by decide +kernel)
  have htags := congrArg (fun t => t.leaves.map (·.map (·.gramm))) hnumbered
  exact absurd htags (by decide +kernel)

end Tree

end Morphology
