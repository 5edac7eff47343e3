import Morphology.Parser
import Morphology.Proofs.EditDistance
import Morphology.Proofs.Parsing.Repetitions
import Morphology.Proofs.Search.Soundness

/-!
# Surfaces of analyses

The analyses of a token have its surface, or one that is a few edits away if corrections are
allowed.  The bound is set where the search accepts a wordform; nothing behind it changes a
surface but the clitics, which give back that of the token.

## Main definitions

* `Answers` — the surfaces that an analysis of a text may have

## Main statements

* `Analyzer.answers_of_mem_analyze` — the analyses of a host answer to it
* `Parser.answers_of_mem_parseSplits` — those of a token, clitics included, answer to the token
* `Parser.parse_spec` — what a parse has, for each kind of token
-/

namespace Morphology

/-- A surface answers to a text if they are equal, or, where edits are allowed and both are long
enough, if so many edits make them equal. -/
def Answers (minLength maxEdits : Nat) (surface text : String) : Prop :=
  surface = text ∨ (0 < maxEdits ∧ minLength ≤ surface.length ∧ minLength ≤ text.length ∧
    ∃ n, n ≤ maxEdits ∧ Edits surface.toList text.toList n)

/-- Without edits only an equal surface answers. -/
theorem Answers.eq_of_zero {minLength : Nat} {surface text : String}
    (h : Answers minLength 0 surface text) : surface = text := by
  rcases h with h | ⟨h, -⟩
  · exact h
  · exact absurd h (Nat.lt_irrefl 0)

/-! ## The search -/

theorem Matcher.answers_iff (m : Matcher) (host surface : String) (maxEdits : Nat) :
    m.answers host.toList maxEdits surface.toList = true ↔
      Answers m.limits.minReplacementWordLen maxEdits surface host := by
  simp only [Matcher.answers, Answers, Bool.or_eq_true, beq_iff_eq, Bool.and_eq_true,
    bne_iff_ne, decide_eq_true_eq, editDistance_le_iff, String.toList_inj, String.length_toList,
    Nat.pos_iff_ne_zero, and_assoc]

namespace Analyzer

variable {a : Analyzer} {host : String} {maxEdits : Nat} {budget : Budget} {w : Wordform}

theorem answers_of_mem_run {p : Placement}
    (hw : w ∈ (a.matcher.run host.toList maxEdits p budget).1) :
    Answers a.matcher.limits.minReplacementWordLen maxEdits w.wf host := by
  obtain ⟨last, -, -, hacc⟩ := Matcher.yields_of_mem_run hw
  exact (a.matcher.answers_iff host w.wf maxEdits).1 (Matcher.of_accept?_eq_some hacc).2.1

/-- What several placements lead to, one of them leads to. -/
theorem exists_mem_run_of_mem_runAll {m : Matcher} {word : List Char} {placements : List Placement}
    (hw : w ∈ (runAll m word maxEdits placements budget).1) :
    ∃ p ∈ placements, ∃ budget', w ∈ (m.run word maxEdits p budget').1 := by
  induction placements generalizing budget with
  | nil => exact absurd hw List.not_mem_nil
  | cons p rest ih =>
    simp only [runAll] at hw
    split at hw
    · exact ⟨p, List.mem_cons_self .., budget, hw⟩
    · rcases List.mem_append.1 hw with hw | hw
      · exact ⟨p, List.mem_cons_self .., budget, hw⟩
      · obtain ⟨q, hq, budget', hw⟩ := ih hw
        exact ⟨q, List.mem_cons_of_mem _ hq, budget', hw⟩

theorem answers_of_mem_pass (hw : w ∈ (a.pass host.toList maxEdits budget).1) :
    Answers a.matcher.limits.minReplacementWordLen maxEdits w.wf host := by
  obtain ⟨p, -, budget', hw⟩ := exists_mem_run_of_mem_runAll hw
  exact answers_of_mem_run hw

/-- The analyses of a host answer to it. -/
theorem answers_of_mem_analyze (hw : w ∈ (a.analyze host maxEdits budget).1) :
    Answers a.matcher.limits.minReplacementWordLen maxEdits w.wf host := by
  simp only [analyze] at hw
  split at hw
  · exact answers_of_mem_pass hw
  · rcases List.mem_append.1 hw with hw | hw
    · exact .inl (answers_of_mem_pass hw).eq_of_zero
    · have hwf := (List.mem_filter.1 hw).2
      exact .inl (by simpa using hwf)

end Analyzer

/-! ## Behind the search -/

theorem LexRule.wf_of_enrich? {r : LexRule} {w w' : Wordform} (h : r.enrich? w = some w') :
    w'.wf = w.wf := by
  unfold enrich? at h
  split at h
  · rw [← Option.some.inj h]
    rfl
  · exact absurd h (by simp)

namespace Grammar

variable {g : Grammar} {w w' : Wordform} {analyses : List Wordform}

theorem wf_of_mem_enrich (h : w' ∈ g.enrich w) : w'.wf = w.wf := by
  simp only [enrich] at h
  rcases List.mem_append.1 h with h | h
  · split at h
    · exact absurd h List.not_mem_nil
    · rw [List.mem_singleton.1 h]
  · obtain ⟨⟨mode, made⟩, hmade, rfl⟩ := List.mem_map.1 h
    obtain ⟨r, -, hr⟩ := List.mem_filterMap.1 hmade
    obtain ⟨made', hmade', heq⟩ := Option.map_eq_some_iff.1 hr
    obtain ⟨-, rfl⟩ := Prod.mk.inj heq
    exact LexRule.wf_of_enrich? hmade'

theorem wf_expandMarkers (w : Wordform) : w.expandMarkers.wf = w.wf := by
  rw [Wordform.expandMarkers]

/-- What comes of the analyses has the surface of one of them. -/
theorem exists_wf_of_mem_postprocess (h : w ∈ g.postprocess analyses) :
    ∃ w' ∈ analyses, w.wf = w'.wf := by
  obtain ⟨found, hfound, houtcome⟩ := mem_postprocess_iff.1 h
  obtain ⟨made, hmade, rfl⟩ := List.mem_map.1 houtcome
  rw [wf_expandMarkers]
  exact ⟨found, (BadAnalyses.filter_sublist _ _).subset hfound, wf_of_mem_enrich hmade⟩

end Grammar

/-! ## Clitics -/

theorem Clitic.wf_attach (c : Clitic) (w : Wordform) : (c.attach w).wf = w.wf := by
  unfold attach
  cases c.side with
  | proclitic | enclitic | other => rfl

private theorem wf_foldl_attach (clitics : List Clitic) (w : Wordform) :
    (clitics.foldl (fun w c => c.attach w) w).wf = w.wf := by
  induction clitics generalizing w with
  | nil => rfl
  | cons c rest ih => rw [List.foldl_cons, ih, Clitic.wf_attach]

theorem wf_attachAll (clitics : List Clitic) (w : Wordform) : (attachAll clitics w).wf = w.wf := by
  unfold attachAll
  rw [wf_foldl_attach, wf_foldl_attach]

/-- With clitics, an analysis stands for the whole token. -/
theorem wf_of_mem_attachClitics {token : String} {clitics : List Clitic}
    {analyses : List Wordform} {w : Wordform} (hne : clitics ≠ [])
    (h : w ∈ attachClitics token clitics analyses) : w.wf = token := by
  unfold attachClitics at h
  rw [if_neg (by simpa using hne)] at h
  obtain ⟨w', -, rfl⟩ := List.mem_map.1 h
  exact wf_attachAll clitics _

theorem Split.clitics_around_ne_nil (c : Clitic) (s : Split) : (s.around c).clitics ≠ [] := by
  unfold around
  cases c.side with
  | proclitic | enclitic | other => simp

private theorem clitics_ne_nil_of_mem_cliticSplits {clitics : List Clitic} {fuel : Nat}
    {encliticsOnly : Bool} {word : List Char} {s : Split}
    (h : s ∈ cliticSplits clitics fuel encliticsOnly word) : s.clitics ≠ [] := by
  cases fuel with
  | zero => exact absurd h List.not_mem_nil
  | succ fuel =>
    rw [cliticSplits] at h
    obtain ⟨c, -, hs⟩ := List.mem_flatMap.1 h
    split at hs
    · exact absurd hs List.not_mem_nil
    · rcases List.mem_cons.1 hs with rfl | hs
      · exact List.cons_ne_nil _ _
      · obtain ⟨inner, -, rfl⟩ := List.mem_map.1 hs
        exact inner.clitics_around_ne_nil c

/-- A split without clitics has the whole token for its host. -/
theorem host_of_mem_hosts {clitics : List Clitic} {token : String} {s : Split}
    (h : s ∈ hosts clitics token) (hnil : s.clitics = []) : s.host = token := by
  rcases List.mem_cons.1 h with rfl | h
  · rfl
  · exact absurd hnil (clitics_ne_nil_of_mem_cliticSplits h)

/-! ## Tokens -/

namespace Parser

variable {p : Parser} {token : String} {maxEdits : Nat} {splits : List Split} {budget : Budget}
  {w : Wordform}

/-- What a split leads to answers to the token. -/
private theorem answers_of_split {s : Split} (hs : s.clitics = [] → s.host = token)
    (hw : w ∈ attachClitics token s.clitics
      (p.grammar.postprocess (p.analyzer.analyze s.host maxEdits budget).1)) :
    Answers p.analyzer.matcher.limits.minReplacementWordLen maxEdits w.wf token := by
  by_cases hnil : s.clitics = []
  · rw [hnil] at hw
    obtain ⟨w', hw', heq⟩ := Grammar.exists_wf_of_mem_postprocess hw
    rw [heq, ← hs hnil]
    exact Analyzer.answers_of_mem_analyze hw'
  · exact .inl (wf_of_mem_attachClitics hnil hw)

/-- The analyses that `parseSplits` makes of the splits of a token answer to it. -/
theorem answers_of_mem_parseSplits (hsplits : ∀ s ∈ splits, s.clitics = [] → s.host = token)
    (hw : w ∈ (p.parseSplits token maxEdits splits budget).1) :
    Answers p.analyzer.matcher.limits.minReplacementWordLen maxEdits w.wf token := by
  induction splits generalizing budget with
  | nil => exact absurd hw List.not_mem_nil
  | cons s rest ih =>
    have hrest : ∀ s ∈ rest, s.clitics = [] → s.host = token :=
      fun s hs => hsplits s (List.mem_cons_of_mem _ hs)
    have hhere := hsplits s (List.mem_cons_self ..)
    simp only [parseSplits] at hw
    -- The search may be over before a split, behind it, or go on to the next.
    split at hw
    · exact ih hrest hw
    · split at hw
      · exact answers_of_split hhere hw
      · rcases List.mem_append.1 hw with hw | hw
        · exact answers_of_split hhere hw
        · exact ih hrest hw

/-- A parse has a `placeholder` for a token that is empty, nothing for one that is too long, and
otherwise analyses or a placeholder that answer to it. -/
theorem parse_spec {g : Grammar} {config : ParserConfig} (hp : ofGrammar g config = .ok p)
    (raw : String) (maxEdits : Nat) :
    (cleanToken raw = "" → p.parse raw maxEdits = [.placeholder raw]) ∧
    (cleanToken raw ≠ "" → config.maxTokenLength < (cleanToken raw).length →
      p.parse raw maxEdits = []) ∧
    (cleanToken raw ≠ "" → (cleanToken raw).length ≤ config.maxTokenLength →
      p.parse raw maxEdits ≠ [] ∧ ∀ w ∈ p.parse raw maxEdits,
        Answers config.minReplacementWordLen maxEdits w.wf (cleanToken raw)) := by
  obtain ⟨a, hbuild, rfl⟩ : ∃ a, Analyzer.build g config = .ok a ∧ (⟨a, config⟩ : Parser) = p := by
    unfold ofGrammar at hp
    exact map_eq_ok_iff.1 hp
  have hlimits : a.matcher.limits.minReplacementWordLen = config.minReplacementWordLen := by
    rw [Analyzer.limits_of_build hbuild]
  unfold parse
  refine ⟨fun hempty => ?_, fun hne hlong => ?_, fun hne hshort => ?_⟩
  · rw [if_pos (by simp [hempty])]
  · rw [if_neg (by simpa using hne), if_pos hlong]
  · rw [if_neg (by simpa using hne), if_neg (Nat.not_lt.2 hshort)]
    dsimp only
    split
    · -- Without analyses the placeholder has the surface of the token itself.
      refine ⟨List.cons_ne_nil _ _, fun w hw => ?_⟩
      rw [List.mem_singleton.1 hw]
      exact .inl rfl
    · rename_i hfound
      refine ⟨by simpa using hfound, fun w hw => ?_⟩
      rw [← hlimits]
      exact answers_of_mem_parseSplits (fun s hs => host_of_mem_hosts hs) hw

theorem parse_spec_sampleNouns :
    ∃ p, ofGrammar (Grammar.ofDocument default sampleNouns).grammar default = .ok p ∧
      cleanToken "(ctasm)" = "ctasm" ∧
      ∀ w ∈ p.parse "(ctasm)" 1, Answers 6 1 w.wf "ctasm" := by
  have hok : ((ofGrammar (Grammar.ofDocument default sampleNouns).grammar default).toOption.any
      fun _ => true) = true := by
    decide +kernel
  obtain ⟨p, hp, -⟩ := exists_eq_ok_of_any hok
  have hclean : cleanToken "(ctasm)" = "ctasm" := by decide
  have hspec := (parse_spec hp "(ctasm)" 1).2.2
  rw [hclean] at hspec
  exact ⟨p, hp, hclean, (hspec (by decide) (by decide)).2⟩

end Parser

end Morphology
