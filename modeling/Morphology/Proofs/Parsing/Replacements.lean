import Morphology.Proofs.Parsing.Surfaces
import Morphology.Proofs.Search.Budget

/-!
# Allowing corrections keeps what is found without

A host is looked for with corrections only when no acceptable analysis is found for it as it stands.
Whether one is acceptable is asked of the analyses that the search finds, and what becomes of them
behind the search is decided elsewhere: there they are filtered, enriched and freed of repetitions.
The two agree, so that corrections never take the place of an analysis that would have stayed, and
a parse with corrections has all analyses of a parse without, in their order.

## Main definitions

* `Parser.fromSplit` — the analyses of a token that one of its splits leads to
* `Parser.exhausts` — whether the steps of a token are too few for it

## Main statements

* `Grammar.postprocess_ne_nil_iff` — something is left behind the search if one analysis is not bad
* `Analyzer.analyze_eq_of_anyAcceptable` — a host with an acceptable analysis is not corrected
* `Parser.sublist_parseSplits` — the analyses that corrections leave in place
* `Parser.exact_analyses_kept` — all of it, for lists of analyses, hosts and tokens
-/

namespace Morphology

/-! ## Behind the search -/

namespace Grammar

variable {g : Grammar} {analyses : List Wordform}

/-- An analysis is left out only if a rule puts another in its place. -/
theorem enrich_ne_nil (g : Grammar) (w : Wordform) : g.enrich w ≠ [] := by
  intro h
  simp only [enrich, List.append_eq_nil_iff, List.map_eq_nil_iff] at h
  obtain ⟨hself, hmade⟩ := h
  rw [hmade] at hself
  exact absurd hself (List.cons_ne_nil _ _)

theorem outcomes_ne_nil (g : Grammar) (w : Wordform) : g.outcomes w ≠ [] := by
  rw [outcomes, ne_eq, List.map_eq_nil_iff]
  exact g.enrich_ne_nil w

/-- Something is left behind the search if one of the analyses found is not bad. -/
theorem postprocess_ne_nil_iff : g.postprocess analyses ≠ [] ↔
    ∃ i < analyses.length, g.badAnalyses.isBad analyses i = false := by
  rw [← BadAnalyses.filter_ne_nil_iff, postprocess_eq, ne_eq, dedup_eq_nil_iff,
    List.flatMap_eq_nil_iff, ne_eq, List.eq_nil_iff_forall_not_mem]
  simp only [outcomes_ne_nil, imp_false]

@[simp] theorem postprocess_nil (g : Grammar) : g.postprocess [] = [] := by
  by_contra h
  obtain ⟨i, hlt, -⟩ := postprocess_ne_nil_iff.1 h
  exact absurd hlt (Nat.not_lt_zero i)

end Grammar

@[simp] theorem attachClitics_nil (token : String) (clitics : List Clitic) :
    attachClitics token clitics [] = [] := by
  unfold attachClitics
  split <;> rfl

/-! ## Budgets -/

/-- A budget that is not exhausted is one of which nothing is spent. -/
theorem Budget.eq_fresh {budget : Budget} (h : budget.exhausted = false) :
    budget = .fresh budget.remaining := by
  obtain ⟨remaining, exhausted⟩ := budget
  exact congrArg (Budget.mk remaining) h

namespace Analyzer

variable {a : Analyzer} {host : String} {maxEdits : Nat} {budget : Budget}

private theorem not_exhausted_of_run {m : Matcher} {word : List Char} {p : Placement}
    (h : (m.run word maxEdits p budget).2.exhausted = false) : budget.exhausted = false := by
  unfold Matcher.run at h
  exact (Bool.or_eq_false_iff.1 h).1

private theorem not_exhausted_of_runAll {m : Matcher} {word : List Char}
    {placements : List Placement}
    (h : (runAll m word maxEdits placements budget).2.exhausted = false) :
    budget.exhausted = false := by
  induction placements generalizing budget with
  | nil => exact h
  | cons p rest ih =>
    simp only [runAll] at h
    -- The first search is not exhausted, whether or not the others are tried.
    split at h
    · exact not_exhausted_of_run h
    · exact not_exhausted_of_run (ih h)

theorem not_exhausted_of_pass {word : List Char}
    (h : (a.pass word maxEdits budget).2.exhausted = false) : budget.exhausted = false :=
  not_exhausted_of_runAll h

/-- Budgets that both suffice find the same. -/
theorem pass_eq_of_not_exhausted {word : List Char} {budget' : Budget}
    (h : (a.pass word maxEdits budget).2.exhausted = false)
    (h' : (a.pass word maxEdits budget').2.exhausted = false) :
    (a.pass word maxEdits budget).1 = (a.pass word maxEdits budget').1 := by
  -- A budget only cuts: what is found with less of it is what is found with more, if less suffices.
  have hcut := ((a.searches_pass word maxEdits).onlyCut _).whole
  have hfresh := Budget.eq_fresh (not_exhausted_of_pass h)
  have hfresh' := Budget.eq_fresh (not_exhausted_of_pass h')
  rw [hfresh] at h ⊢
  rw [hfresh'] at h' ⊢
  rcases Nat.le_total budget.remaining budget'.remaining with hle | hle
  · exact hcut _ _ hle h
  · exact (hcut _ _ hle h').symm

/-! ## Hosts -/

theorem anyAcceptable_iff (a : Analyzer) (found : List Wordform) :
    a.anyAcceptable found = true ↔ a.grammar.postprocess found ≠ [] := by
  rw [Grammar.postprocess_ne_nil_iff]
  simp [anyAcceptable]

/-- Without corrections there is one pass. -/
theorem analyze_zero (a : Analyzer) (host : String) (budget : Budget) :
    a.analyze host 0 budget =
      ((a.pass host.toList 0 budget).1 ++ a.generated host, (a.pass host.toList 0 budget).2) := by
  simp [analyze]

/-- A host with an acceptable analysis is not corrected. -/
theorem analyze_eq_of_anyAcceptable (h : a.anyAcceptable (a.analyze host 0 budget).1 = true) :
    a.analyze host maxEdits budget = a.analyze host 0 budget := by
  rw [analyze_zero] at h ⊢
  simp [analyze, h]

/-- The pass without corrections comes first. -/
theorem analyze_zero_not_exhausted (h : (a.analyze host maxEdits budget).2.exhausted = false) :
    (a.analyze host 0 budget).2.exhausted = false := by
  rw [analyze_zero]
  simp only [analyze] at h
  split at h
  · exact not_exhausted_of_pass h
  · exact h

theorem not_exhausted_of_analyze (h : (a.analyze host maxEdits budget).2.exhausted = false) :
    budget.exhausted = false := by
  have h₀ := analyze_zero_not_exhausted h
  rw [analyze_zero] at h₀
  exact not_exhausted_of_pass h₀

/-- What a host has without corrections it also has with them, and with another budget, if something
is left of it behind the search and both budgets suffice. -/
theorem analyze_eq_of_not_exhausted {budget' : Budget}
    (hleft : a.grammar.postprocess (a.analyze host 0 budget).1 ≠ [])
    (h : (a.analyze host 0 budget).2.exhausted = false)
    (h' : (a.analyze host maxEdits budget').2.exhausted = false) :
    (a.analyze host maxEdits budget').1 = (a.analyze host 0 budget).1 := by
  -- The pass without corrections has the same analyses with either budget, so no other pass is
  -- made.
  have h₀ := analyze_zero_not_exhausted h'
  have hsame : (a.analyze host 0 budget').1 = (a.analyze host 0 budget).1 := by
    rw [analyze_zero] at h h₀
    rw [analyze_zero, analyze_zero, pass_eq_of_not_exhausted h₀ h]
  rw [← hsame, ← anyAcceptable_iff] at hleft
  rw [analyze_eq_of_anyAcceptable hleft, hsame]

end Analyzer

/-! ## Tokens -/

namespace Parser

variable {p : Parser} {token raw : String} {maxEdits : Nat} {s : Split} {splits : List Split}
  {budget budget' : Budget}

/-- The analyses of a token that one of its splits leads to. -/
def fromSplit (p : Parser) (token : String) (maxEdits : Nat) (s : Split) (budget : Budget) :
    List Wordform :=
  attachClitics token s.clitics
    (p.grammar.postprocess (p.analyzer.analyze s.host maxEdits budget).1)

theorem not_exhausted_of_parseSplits
    (h : (p.parseSplits token maxEdits splits budget).2.exhausted = false) :
    budget.exhausted = false := by
  induction splits generalizing budget with
  | nil => exact h
  | cons s rest ih =>
    simp only [parseSplits] at h
    -- The first host is analyzed before the others, from whatever is left of the budget.
    suffices hhere : (p.analyzer.analyze s.host maxEdits budget).2.exhausted = false from
      Analyzer.not_exhausted_of_analyze hhere
    split at h
    · exact ih h
    · split at h
      · exact h
      · exact ih h

/-- If the budget suffices, the analyses of the first split stand before those of the others. -/
theorem parseSplits_cons_of_not_exhausted
    (h : (p.parseSplits token maxEdits (s :: splits) budget).2.exhausted = false) :
    (p.analyzer.analyze s.host maxEdits budget).2.exhausted = false ∧
      (p.parseSplits token maxEdits splits
        (p.analyzer.analyze s.host maxEdits budget).2).2.exhausted = false ∧
      (p.parseSplits token maxEdits (s :: splits) budget).1 =
        p.fromSplit token maxEdits s budget ++ (p.parseSplits token maxEdits splits
          (p.analyzer.analyze s.host maxEdits budget).2).1 := by
  simp only [parseSplits] at h ⊢
  split at h
  · -- Nothing is found for the first split, and so nothing stands in front.
    rename_i hnone
    have hnothing : p.fromSplit token maxEdits s budget = [] := by
      rw [fromSplit, List.isEmpty_iff.1 hnone]
      rw [Grammar.postprocess_nil, attachClitics_nil]
    exact ⟨not_exhausted_of_parseSplits h, h, by rw [if_pos hnone, hnothing, List.nil_append]⟩
  · rename_i hsome
    split at h
    · -- The budget would be used up by the first split, but it suffices for all.
      rename_i hover
      exact absurd hover (Bool.eq_false_iff.1 h)
    · rename_i hleft
      exact ⟨by simpa using hleft, h, by rw [if_neg hsome, if_neg hleft, fromSplit]⟩

/-- What a split leads to stays when corrections are allowed. -/
theorem fromSplit_sublist
    (h : (p.analyzer.analyze s.host 0 budget).2.exhausted = false)
    (h' : (p.analyzer.analyze s.host maxEdits budget').2.exhausted = false) :
    (p.fromSplit token 0 s budget).Sublist (p.fromSplit token maxEdits s budget') := by
  unfold fromSplit
  by_cases hleft : p.grammar.postprocess (p.analyzer.analyze s.host 0 budget).1 = []
  · -- A split without analyses may get some by corrections.
    rw [hleft, attachClitics_nil]
    exact List.nil_sublist _
  · rw [Analyzer.analyze_eq_of_not_exhausted hleft h h']

/-- The analyses that corrections leave in place.  The splits share a budget, of which corrections
take more, so that the budgets of the two runs differ from the second split on. -/
theorem sublist_parseSplits
    (h : (p.parseSplits token 0 splits budget).2.exhausted = false)
    (h' : (p.parseSplits token maxEdits splits budget').2.exhausted = false) :
    (p.parseSplits token 0 splits budget).1.Sublist
      (p.parseSplits token maxEdits splits budget').1 := by
  induction splits generalizing budget budget' with
  | nil => exact List.Sublist.refl _
  | cons s rest ih =>
    -- The rest of each budget suffices for the other splits.
    obtain ⟨hhere, hrest, heq⟩ := parseSplits_cons_of_not_exhausted h
    obtain ⟨hhere', hrest', heq'⟩ := parseSplits_cons_of_not_exhausted h'
    rw [heq, heq']
    exact (fromSplit_sublist hhere hhere').append (ih hrest hrest')

/-- Whether the steps of a token are too few for it.  Tokens that are empty or too long take no
steps. -/
def exhausts (p : Parser) (raw : String) (maxEdits : Nat) : Bool :=
  let token := cleanToken raw
  !token.isEmpty && token.length ≤ p.config.maxTokenLength &&
    (p.parseSplits token maxEdits (hosts p.grammar.clitics token)
      (.fresh p.config.maxStepsPerToken)).2.exhausted

/-- A token with analyses keeps them, in their order, when corrections are allowed. -/
theorem sublist_parse (hfound : p.parse raw 0 ≠ [.placeholder (cleanToken raw)])
    (h : p.exhausts raw 0 = false) (h' : p.exhausts raw maxEdits = false) :
    (p.parse raw 0).Sublist (p.parse raw maxEdits) := by
  unfold parse at hfound ⊢
  unfold exhausts at h h'
  dsimp only at hfound h h' ⊢
  split
  · -- An empty token has its placeholder either way, and so has one that is too long.
    exact List.Sublist.refl _
  · rename_i hne
    split
    · exact List.Sublist.refl _
    · rename_i hshort
      rw [if_neg hne, if_neg hshort] at hfound
      have hruns : (!(cleanToken raw).isEmpty &&
          (cleanToken raw).length ≤ p.config.maxTokenLength) = true := by
        simpa [Nat.not_lt.1 hshort] using hne
      rw [hruns, Bool.true_and] at h h'
      have hsub := sublist_parseSplits h h'
      -- The token has analyses, so no placeholder stands for it with corrections either.
      split at hfound
      · exact absurd rfl hfound
      · rename_i hsome
        rw [if_neg hsome, if_neg]
        · exact hsub
        · intro hnone
          rw [List.isEmpty_iff.1 hnone, List.sublist_nil] at hsub
          exact hsome (by rw [hsub]; rfl)

/-- **Corrections lose nothing.**  If `postprocess` leaves anything of what `analyze` finds without
edits, the same is found with any number of edits. What `parse` finds without edits, other than a
placeholder, is part of what it finds with edits, unless one of the two parses `exhausts` its
budget. -/
theorem exact_analyses_kept :
    (∀ (a : Analyzer) (found : List Wordform),
      a.anyAcceptable found = true ↔ a.grammar.postprocess found ≠ []) ∧
    (∀ (a : Analyzer) (host : String) (maxEdits : Nat) (budget : Budget),
      a.grammar.postprocess (a.analyze host 0 budget).1 ≠ [] →
        a.analyze host maxEdits budget = a.analyze host 0 budget) ∧
    (∀ (p : Parser) (raw : String) (maxEdits : Nat),
      p.parse raw 0 ≠ [.placeholder (cleanToken raw)] → p.exhausts raw 0 = false →
        p.exhausts raw maxEdits = false → (p.parse raw 0).Sublist (p.parse raw maxEdits)) :=
  ⟨Analyzer.anyAcceptable_iff,
    fun a _ _ _ h => Analyzer.analyze_eq_of_anyAcceptable ((a.anyAcceptable_iff _).2 h),
    fun _ _ _ => sublist_parse⟩

theorem exact_analyses_kept_sampleNouns :
    ∃ p, ofGrammar (Grammar.ofDocument default sampleNouns).grammar default = .ok p ∧
      p.analyzer.grammar.postprocess (p.analyzer.analyze "catsm" 0 (.fresh 50)).1 ≠ [] ∧
      p.analyzer.analyze "catsm" 1 (.fresh 50) = p.analyzer.analyze "catsm" 0 (.fresh 50) ∧
      p.parse "(catsm)" 0 ≠ [.placeholder "catsm"] ∧
      (p.parse "(catsm)" 0).Sublist (p.parse "(catsm)" 1) := by
  have hfound : ((ofGrammar (Grammar.ofDocument default sampleNouns).grammar default).toOption.any
      fun p => p.analyzer.grammar.postprocess (p.analyzer.analyze "catsm" 0 (.fresh 50)).1 != [] &&
        p.parse "(catsm)" 0 != [.placeholder (cleanToken "(catsm)")] &&
        !p.exhausts "(catsm)" 0 && !p.exhausts "(catsm)" 1) = true := by
    decide +kernel
  obtain ⟨p, hp, htests⟩ := exists_eq_ok_of_any hfound
  simp only [Bool.and_eq_true, bne_iff_ne, Bool.not_eq_true'] at htests
  obtain ⟨⟨⟨hleft, hparse⟩, hexact⟩, hcorrected⟩ := htests
  have hclean : cleanToken "(catsm)" = "catsm" := by decide
  have hhost := exact_analyses_kept.2.1 p.analyzer "catsm" 1 (.fresh 50) hleft
  have htoken := exact_analyses_kept.2.2 p "(catsm)" 1 hparse hexact hcorrected
  exact ⟨p, hp, hleft, hhost, hclean ▸ hparse, htoken⟩

end Parser

end Morphology
