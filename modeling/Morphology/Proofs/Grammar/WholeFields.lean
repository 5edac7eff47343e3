import Morphology.Proofs.Grammar.BadAnalyses
import Morphology.Proofs.Pattern.Language

/-!
# Patterns of whole fields

A pattern of a bad-analysis entry gets an anchor at both ends.  It then matches a field of an
analysis where an alternative of it matches, the first from the beginning of the field and the last
up to its end.  So a field that the pattern matches as a whole conforms, and no other does if the
pattern has one alternative.

A bar outside of groups takes the other anchor away from the first alternative and from the last.

## Main statements

* `BadTemplate.anchored_of_noAnchors` — the text of a pattern with its anchors
* `BadTemplate.conforms_between_anchors` — which analyses conform to an entry with one pattern
* `BadTemplate.not_matchesWhole_barredPattern` — an analysis that conforms although the pattern does
  not match all of the field
-/

namespace Morphology

namespace BadTemplate

open Pattern (MatchesBetweenAnchors outermost?)

/-- Only anchors at the ends of a pattern are replaced. -/
theorem anchored_of_noAnchors {p : String} (hfront : ∀ c ∈ p.toList.head?, c ≠ '^' ∧ c ≠ '$')
    (hback : ∀ c ∈ p.toList.getLast?, c ≠ '^' ∧ c ≠ '$') : anchored p = "^" ++ p ++ "$" := by
  have htest (c : Char) (hc : c ≠ '^' ∧ c ≠ '$') : (c == '^' || c == '$') = false := by
    simpa using hc
  -- There is nothing to trim at either end.
  have htrimmed : Text.IsTrimmed (fun c => c == '^' || c == '$') p.toList p.toList :=
    ⟨⟨[], [], by simp, nofun⟩, fun c hc => htest c (hfront c hc), fun c hc => htest c (hback c hc)⟩
  rw [anchored, ← Text.isTrimmed_iff.1 htrimmed, String.ofList_toList]

/-- **Which analyses conform to an entry with one pattern**, for a pattern without switches that
neither begins nor ends with an anchor, and a field with one value: those with a field that the
alternatives match between the anchors (`MatchesBetweenAnchors`). A field that the pattern matches
as a whole (`MatchesWhole`) is always among them, and there are no others if the pattern has one
alternative. An entry is refused only if its pattern `IsTooLarge` with the anchors. This is so for
every engine that `Implements` a `PatternLanguage`. -/
theorem conforms_between_anchors {P : Type} [PatternEngine P] {L : PatternLanguage}
    (hengine : PatternEngine.Implements P L) {name p value : String} {q : P} {w : Wordform}
    (hread : PatternEngine.read? p = some q)
    (hswitches : ¬ Pattern.Token.HasSwitches p.toList)
    (hfront : ∀ c ∈ p.toList.head?, c ≠ '^' ∧ c ≠ '$')
    (hback : ∀ c ∈ p.toList.getLast?, c ≠ '^' ∧ c ≠ '$')
    (hvalue : (Field.read name).value? w = some value) :
    ∃ alternatives, L.alternatives? p = some alternatives ∧
      ((∃ t : BadTemplate P, ofMembers [(some name, .str (some p))] = .ok t ∧
          (t.conforms w = true ↔ MatchesBetweenAnchors alternatives value.toList) ∧
          (L.MatchesWhole p value.toList → t.conforms w = true) ∧
          (alternatives.length = 1 → (t.conforms w = true ↔ L.MatchesWhole p value.toList))) ∨
        (ofMembers [(some name, .str (some p))] : Except GrammarError (BadTemplate P)) =
            .error (.invalidPattern p .badAnalyses) ∧
          L.IsTooLarge (anchored p)) := by
  obtain ⟨alternatives, halternatives, -⟩ := hengine.isMatch_iff hread
  refine ⟨alternatives, halternatives, ?_⟩
  obtain ⟨outer, houter, hbetween⟩ := L.exists_alternatives?_anchored halternatives hswitches
  rw [← anchored_of_noAnchors hfront hback] at houter
  cases hanchored : (PatternEngine.read? (anchored p) : Option P) with
  | none =>
    -- The anchored text is a pattern as well, so it is too large.
    refine .inr ⟨by simp only [ofMembers, hanchored], ?_⟩
    refine (hengine.refused hanchored).resolve_left fun hnone => ?_
    exact absurd (houter.symm.trans hnone) nofun
  | some q' =>
    obtain ⟨outer', houter', hmatch⟩ := hengine.isMatch_iff hanchored
    obtain rfl := Option.some.inj (houter.symm.trans houter')
    have hmembers : ofMembers [(some name, .str (some p))] = .ok ⟨[(Field.read name, q')]⟩ := by
      simp only [ofMembers, hanchored, Except.map]
    have hconforms : (BadTemplate.mk [(Field.read name, q')]).conforms w = true ↔
        MatchesBetweenAnchors alternatives value.toList := by
      rw [← hbetween, ← hmatch, conforms_cons, hvalue]
      simp [conforms]
    refine .inl ⟨_, hmembers, hconforms, fun hwhole => ?_, fun hone => ?_⟩
    · obtain ⟨a, ha, hspan⟩ := (PatternLanguage.matchesWhole_iff halternatives).1 hwhole
      exact hconforms.2 (Pattern.matchesBetweenAnchors_of_whole ha hspan)
    · rw [hconforms, Pattern.matchesBetweenAnchors_iff_whole hone,
        PatternLanguage.matchesWhole_iff halternatives]

/-- A pattern with its alternatives in a group. -/
def groupedPattern : String := "(bad|worse)ly"

theorem conforms_between_anchors_groupedPattern : ∃ (q : Pattern) (t : BadTemplate Pattern),
    PatternEngine.read? groupedPattern = some q ∧
    ofMembers [(some "lex", .str (some groupedPattern))] = .ok t ∧
    t.conforms (BadAnalyses.sampleAnalysis "badly" "ADV") = true ∧
    Pattern.language.MatchesWhole groupedPattern "badly".toList := by
  obtain ⟨q, hq⟩ := Option.isSome_iff_exists.1
    (show (Pattern.read? groupedPattern).isSome = true by decide +kernel)
  have hmade : (ofMembers [(some "lex", .str (some groupedPattern))] :
      Except GrammarError (BadTemplate Pattern)).toOption.any
        (·.conforms (BadAnalyses.sampleAnalysis "badly" "ADV")) = true := by decide +kernel
  obtain ⟨t, ht, hconforms⟩ := exists_eq_ok_of_any hmade
  have hone : (outermost? groupedPattern).all (·.choices.length == 1) = true := by decide +kernel
  obtain ⟨alternatives, halternatives, hcases⟩ := conforms_between_anchors
    (w := BadAnalyses.sampleAnalysis "badly" "ADV") Pattern.implements_language hq
    (Pattern.Token.not_hasSwitches (by simp [groupedPattern])) (by simp [groupedPattern])
    (by simp [groupedPattern]) (show (Field.read "lex").value? _ = some "badly" by decide +kernel)
  obtain ⟨d, hd, rfl⟩ := Pattern.alternatives?_language_iff.1 halternatives
  rw [hd, Option.all_some, beq_iff_eq] at hone
  -- The group is one alternative, so the anchors are at both ends of it.
  obtain ⟨t', ht', -, -, hwhole⟩ | ⟨herror, -⟩ := hcases
  · obtain rfl := Except.ok.inj (ht.symm.trans ht')
    exact ⟨q, t, hq, ht, hconforms, (hwhole (by rw [List.length_map, hone])).1 hconforms⟩
  · exact absurd (ht.symm.trans herror) nofun

/-- A pattern with its alternatives outside of groups. -/
def barredPattern : String := "bad|worse"

/-- A bar outside of groups divides the anchors: a lemma conforms that only begins like the first
alternative, although the pattern does not match all of it. -/
theorem not_matchesWhole_barredPattern :
    (∀ c ∈ barredPattern.toList.head?, c ≠ '^' ∧ c ≠ '$') ∧
    (∀ c ∈ barredPattern.toList.getLast?, c ≠ '^' ∧ c ≠ '$') ∧
    (Field.read "lex").value? (BadAnalyses.sampleAnalysis "badly" "ADV") = some "badly" ∧
    ∃ (q : Pattern) (t : BadTemplate Pattern), PatternEngine.read? barredPattern = some q ∧
      ofMembers [(some "lex", .str (some barredPattern))] = .ok t ∧
      t.conforms (BadAnalyses.sampleAnalysis "badly" "ADV") = true ∧
      ¬ Pattern.language.MatchesWhole barredPattern "badly".toList := by
  refine ⟨by simp [barredPattern], by simp [barredPattern], by decide +kernel, ?_⟩
  obtain ⟨q, hq⟩ := Option.isSome_iff_exists.1
    (show (Pattern.read? barredPattern).isSome = true by decide +kernel)
  have hmade : (ofMembers [(some "lex", .str (some barredPattern))] :
      Except GrammarError (BadTemplate Pattern)).toOption.any
        (·.conforms (BadAnalyses.sampleAnalysis "badly" "ADV")) = true := by decide +kernel
  obtain ⟨t, ht, hconforms⟩ := exists_eq_ok_of_any hmade
  refine ⟨q, t, hq, ht, hconforms, ?_⟩
  have hchoices : (outermost? barredPattern).map Pattern.Draft.choices =
      some [.literal "bad".toList, .literal "worse".toList] := by decide +kernel
  obtain ⟨d, hd, hchoices⟩ := Option.map_eq_some_iff.1 hchoices
  rw [PatternLanguage.matchesWhole_iff (Pattern.alternatives?_language_iff.2 ⟨d, hd, rfl⟩),
    hchoices]
  rintro ⟨a, ha, hwhole⟩
  -- One alternative ends before the lemma does, and the other does not begin it.
  rcases List.mem_cons.1 ha with rfl | ha
  · exact absurd hwhole.2.2 (by decide)
  · obtain rfl := List.mem_singleton.1 ha
    exact absurd hwhole.2.1 (by decide)

end BadTemplate

end Morphology
