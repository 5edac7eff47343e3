import Mathlib.Data.List.Induction
import Morphology.Proofs.Pattern.Anchors
import Morphology.Proofs.Pattern.Threads

/-!
# Pattern languages

A pattern text consists of alternatives, between the bars that stand outside of its groups.  A bar
binds less than two things that stand side by side, so an anchor in front of a text is a part of its
first alternative only, and one behind it a part of its last.  These rules are all that is needed of
a language to know what an engine makes of a text with both anchors.

## Main definitions

* `Extent` — the stretches of a text that an alternative matches
* `PatternLanguage` — what texts mean as patterns, with the rules of bars and anchors
* `PatternLanguage.MatchesWhole` — a pattern matches all of a text
* `MatchesBetweenAnchors` — alternatives match, the first and the last at an end of the text
* `PatternEngine.Implements` — an engine reads the patterns of a language, and finds them
* `Pattern.language` — the language of `Pattern`

## Main statements

* `PatternLanguage.exists_alternatives?_anchored` — what a text with both anchors matches
* `matchesBetweenAnchors_iff_whole` — for one alternative this is the whole text
* `implements_language` — `Pattern.read?` and `Pattern.isMatch` implement `Pattern.language`
-/

namespace Morphology

namespace Pattern

/-! ## Alternatives -/

/-- The stretches of a text that an alternative matches, from one place to another. -/
abbrev Extent := List Char → Nat → Nat → Prop

/-- The stretches from the beginning of the text. -/
def Extent.fromStart (a : Extent) : Extent := fun text i j => i = 0 ∧ a text i j

/-- The stretches up to the end of the text. -/
def Extent.toEnd (a : Extent) : Extent := fun text i j => a text i j ∧ j = text.length

/-- Alternatives match a text, the first from its beginning and the last up to its end.  Those
between them, and the other end of the first and the last, are free. -/
def MatchesBetweenAnchors (as : List Extent) (text : List Char) : Prop :=
  ∃ n a i j, as[n]? = some a ∧ a text i j ∧ (n = 0 → i = 0) ∧ (n + 1 = as.length → j = text.length)

variable {text : List Char} {as mids : List Extent} {a first last : Extent}

theorem matchesBetweenAnchors_singleton :
    MatchesBetweenAnchors [a] text ↔ a text 0 text.length := by
  constructor
  · intro h
    obtain ⟨n, a', i, j, hn, ha, hfirst, hlast⟩ := h
    cases n with
    | zero =>
      obtain rfl := Option.some.inj hn
      exact hfirst rfl ▸ hlast rfl ▸ ha
    | succ n => exact absurd hn nofun
  · exact fun h => ⟨0, a, 0, text.length, rfl, h, fun _ => rfl, fun _ => rfl⟩

/-- Of several alternatives the first and the last are different ones. -/
theorem matchesBetweenAnchors_cons : MatchesBetweenAnchors (first :: (mids ++ [last])) text ↔
    (∃ j, first text 0 j) ∨ (∃ a ∈ mids, ∃ i j, a text i j) ∨ ∃ i, last text i text.length := by
  have hlength : (first :: (mids ++ [last])).length = mids.length + 2 := by simp
  -- A number of the list is that of the first, of one between, or of the last.
  constructor
  · intro h
    obtain ⟨n, a, i, j, hn, ha, hfirst, hlast⟩ := h
    cases n with
    | zero =>
      obtain rfl := Option.some.inj hn
      exact .inl ⟨j, hfirst rfl ▸ ha⟩
    | succ n =>
      rw [List.getElem?_cons_succ] at hn
      by_cases hmid : n < mids.length
      · rw [List.getElem?_append_left hmid] at hn
        exact .inr (.inl ⟨a, List.mem_of_getElem? hn, i, j, ha⟩)
      · have hlt := (List.getElem?_eq_some_iff.1 hn).1
        rw [List.length_append, List.length_singleton] at hlt
        obtain rfl : n = mids.length := by omega
        rw [List.getElem?_concat_length] at hn
        obtain rfl := Option.some.inj hn
        exact .inr (.inr ⟨i, hlast hlength.symm ▸ ha⟩)
  · -- Each way to choose an alternative is a number of the list, which has an anchor just at its
    -- ends.
    intro h
    obtain ⟨j, ha⟩ | ⟨a, hmem, i, j, ha⟩ | ⟨i, ha⟩ := h
    · exact ⟨0, first, 0, j, rfl, ha, fun _ => rfl, fun h => by omega⟩
    · obtain ⟨n, hn⟩ := List.getElem?_of_mem hmem
      have hlt := (List.getElem?_eq_some_iff.1 hn).1
      refine ⟨n + 1, a, i, j, ?_, ha, nofun, fun h => by omega⟩
      rw [List.getElem?_cons_succ, List.getElem?_append_left hlt, hn]
    · refine ⟨mids.length + 1, last, i, text.length, ?_, ha, nofun, fun _ => rfl⟩
      rw [List.getElem?_cons_succ, List.getElem?_concat_length]

/-- What an alternative matches as a whole is matched between the anchors. -/
theorem matchesBetweenAnchors_of_whole (hmem : a ∈ as) (h : a text 0 text.length) :
    MatchesBetweenAnchors as text := by
  obtain ⟨n, hn⟩ := List.getElem?_of_mem hmem
  exact ⟨n, a, 0, text.length, hn, h, fun _ => rfl, fun _ => rfl⟩

/-- A single alternative between the anchors matches the whole text. -/
theorem matchesBetweenAnchors_iff_whole (hone : as.length = 1) :
    MatchesBetweenAnchors as text ↔ ∃ a ∈ as, a text 0 text.length := by
  obtain ⟨a, rfl⟩ := List.length_eq_one_iff.1 hone
  simp [matchesBetweenAnchors_singleton]

end Pattern

open Pattern (Extent MatchesBetweenAnchors)

/-! ## Languages -/

/-- What texts mean as patterns. -/
structure PatternLanguage where
  /-- The alternatives of a text, between the bars outside of its groups, unless it is no pattern.
  -/
  alternatives? : String → Option (List Extent)
  /-- A text is nested too deep, or what it stands for is too large. -/
  IsTooLarge : String → Prop
  /-- A pattern without bars is an alternative. -/
  ne_nil : ∀ {p as}, alternatives? p = some as → as ≠ []
  /-- A caret in front is a part of the first alternative, and stands for the beginning. -/
  caret : ∀ {p a rest}, alternatives? p = some (a :: rest) →
    alternatives? ("^" ++ p) = some (a.fromStart :: rest)
  /-- A dollar sign behind is a part of the last alternative, and stands for the end, if no switch
  can make it something else. -/
  dollar : ∀ {p front a}, ¬ Pattern.Token.HasSwitches p.toList →
    alternatives? p = some (front ++ [a]) → alternatives? (p ++ "$") = some (front ++ [a.toEnd])

namespace PatternLanguage

variable {L : PatternLanguage} {p : String} {as : List Extent}

/-- A pattern matches all of a text. -/
def MatchesWhole (L : PatternLanguage) (p : String) (text : List Char) : Prop :=
  ∃ as, L.alternatives? p = some as ∧ ∃ a ∈ as, a text 0 text.length

theorem matchesWhole_iff {text : List Char} (h : L.alternatives? p = some as) :
    L.MatchesWhole p text ↔ ∃ a ∈ as, a text 0 text.length := by
  simp [MatchesWhole, h]

/-- Between the anchors a pattern matches where its alternatives do, each at the ends that have an
anchor: `MatchesBetweenAnchors` of the `alternatives?` without them. -/
theorem exists_alternatives?_anchored (h : L.alternatives? p = some as)
    (hswitches : ¬ Pattern.Token.HasSwitches p.toList) :
    ∃ anchored, L.alternatives? ("^" ++ p ++ "$") = some anchored ∧ ∀ text,
      (∃ a ∈ anchored, ∃ i j, a text i j) ↔ MatchesBetweenAnchors as text := by
  rw [String.append_assoc]
  cases as using List.reverseRecOn with
  | nil => exact absurd rfl (L.ne_nil h)
  | append_singleton front last =>
    have hdollar := L.dollar hswitches h
    -- A single alternative is anchored at both ends.
    cases front with
    | nil =>
      refine ⟨_, L.caret hdollar, fun text => ?_⟩
      rw [List.nil_append, Pattern.matchesBetweenAnchors_singleton]
      simp [Extent.fromStart, Extent.toEnd]
    -- Of several, the first has an anchor in front and the last one behind.
    | cons first mids =>
      refine ⟨_, L.caret hdollar, fun text => ?_⟩
      rw [List.cons_append, Pattern.matchesBetweenAnchors_cons]
      simp [Extent.fromStart, Extent.toEnd, or_and_right, exists_or]

end PatternLanguage

/-- An engine reads the patterns of a language that are not too large, and finds them where one of
their alternatives matches. -/
structure PatternEngine.Implements (P : Type) [PatternEngine P] (L : PatternLanguage) : Prop where
  isMatch_iff : ∀ {p : String} {q : P}, read? p = some q → ∃ as, L.alternatives? p = some as ∧
    ∀ text, isMatch q text = true ↔ ∃ a ∈ as, ∃ i j, a text.toList i j
  refused : ∀ {p : String}, (read? p : Option P) = none →
    L.alternatives? p = none ∨ L.IsTooLarge p

/-! ## The language of `Pattern` -/

namespace Pattern

/-- The stretches of a text that a pattern matches. -/
def Expr.extent (e : Expr) : Extent := fun text i j => i ≤ text.length ∧ e.Spans text i j

theorem extent_caret (es : List Expr) :
    (Expr.sequence (.assert .textStart :: es)).extent = (Expr.sequence es).extent.fromStart := by
  funext text i j
  refine propext ?_
  unfold Expr.extent Extent.fromStart
  rw [and_left_comm]
  exact and_congr_right fun hi => spans_caret_iff hi

theorem extent_dollar (es : List Expr) :
    (Expr.sequence (es ++ [.assert .textEnd])).extent = (Expr.sequence es).extent.toEnd := by
  funext text i j
  refine propext ?_
  unfold Expr.extent Extent.toEnd
  rw [spans_dollar_iff, and_assoc]
  refine and_congr_right fun hi => and_congr_right fun hspans => ?_
  have hj := (Expr.le_of_spans hspans).2 hi
  simp only [Assertion.holds, placeAt, Option.isNone_iff_eq_none, List.getElem?_eq_none_iff]
  omega

/-- What texts mean to `Pattern.read?`. -/
def language : PatternLanguage where
  alternatives? s := (outermost? s).map fun d => d.choices.map Expr.extent
  IsTooLarge s := ∃ d, outermost? s = some d ∧
    (greatestDepth < d.whole.depth ∨ d.expr.isTooLarge = true)
  ne_nil := by
    intro p as h
    obtain ⟨d, -, rfl⟩ := Option.map_eq_some_iff.1 h
    simp [choices_eq]
  -- The anchor in front joins the first alternative.
  caret := by
    intro p a rest h
    obtain ⟨d, hd, hchoices⟩ := Option.map_eq_some_iff.1 h
    obtain ⟨d', hd', hanchored⟩ := exists_outermost?_caret hd
    obtain ⟨es, others, hplain, hcaret⟩ := hanchored.choices
    rw [hplain, List.map_cons] at hchoices
    obtain ⟨rfl, rfl⟩ := List.cons.inj hchoices
    rw [hd', Option.map_some, hcaret, List.map_cons, extent_caret]
  -- The anchor behind joins the last one.
  dollar := by
    intro p front a hswitches h
    obtain ⟨d, hd, hchoices⟩ := Option.map_eq_some_iff.1 h
    obtain ⟨others, es, hplain, hdollar⟩ := d.choices_push_dollar d.modes
    rw [hplain, List.map_append, List.map_singleton] at hchoices
    obtain ⟨rfl, hlast⟩ := List.append_inj' hchoices rfl
    obtain rfl := List.singleton_inj.1 hlast
    rw [outermost?_dollar hd, Option.map_some, hdollar, modes_of_outermost? hd hswitches,
      List.map_append, List.map_singleton]
    exact congrArg (fun last => some (others.map Expr.extent ++ [last])) (extent_dollar es)

theorem alternatives?_language_iff {p : String} {as : List Extent} :
    language.alternatives? p = some as ↔
      ∃ d, outermost? p = some d ∧ d.choices.map Expr.extent = as :=
  Option.map_eq_some_iff

/-- `Pattern.read?` and `Pattern.isMatch` implement it. -/
theorem implements_language : PatternEngine.Implements Pattern language where
  isMatch_iff := by
    intro p q hread
    obtain ⟨d, hd, hexpr, -, -⟩ := exists_read?_iff.1 ⟨q, hread, rfl⟩
    have hproper := isProper_of_outermost? hd
    refine ⟨_, alternatives?_language_iff.2 ⟨d, hd, rfl⟩, fun text => ?_⟩
    refine (isMatch_iff (hexpr ▸ hproper.expr)).trans ?_
    rw [← hexpr, Draft.expr]
    simp only [Expr.spans_choice hproper.choices, List.mem_map, exists_exists_and_eq_and,
      Expr.extent]
    constructor
    · rintro ⟨i, j, hi, e, he, hspans⟩
      exact ⟨e, he, i, j, hi, hspans⟩
    · rintro ⟨e, he, i, j, hi, hspans⟩
      exact ⟨i, j, hi, e, he, hspans⟩
  refused := by
    intro p hnone
    show (outermost? p).map _ = none ∨ ∃ d, _
    cases hd : outermost? p with
    | none => exact .inl rfl
    | some d =>
      -- The text is a pattern, so only a limit can be in the way.
      refine .inr ⟨d, rfl, ?_⟩
      by_contra hfits
      rw [not_or, Nat.not_lt, Bool.not_eq_true] at hfits
      obtain ⟨q, hq, -⟩ := exists_read?_iff.2 ⟨d, hd, rfl, hfits.1, hfits.2⟩
      exact absurd (hq.symm.trans hnone) nofun

end Pattern

end Morphology
