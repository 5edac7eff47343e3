import Morphology.Proofs.Grammar.Widening
import Morphology.Proofs.Search.Analyses

/-!
# Widening and the search

Widening saves the search a level and does not change what a grammar builds.  Where inflexions only
follow stems it does not change the analyses either.  Elsewhere it may: the search hands back to the
stem at a boundary of an inflexion that stands in a continuation, and a join has lost this boundary.

## Main statements

* `Analyzer.mem_analyze_widened_iff` — in suffixing grammars, widening keeps the analyses
* `Analyzer.widening_adds_analyses` — a grammar in which it adds one
-/

namespace Morphology

namespace Analyzer

/-- **When widening changes nothing.**  Where inflexions only follow stems (`Suffixing`), a word has
the same analyses whether inflexions are widened or not, if the grammars are `Unpruned` and
`LookupsComplete` holds of both analyzers. -/
theorem mem_analyze_widened_iff (d : GrammarDraft) {config : ParserConfig}
    {plain widened : Analyzer}
    (hplain : build d.unwidened.compile.grammar config = .ok plain)
    (hwidened : build d.compile.grammar config = .ok widened)
    (hg : d.unwidened.compile.grammar.Suffixing) {host : String}
    (hlookups : plain.LookupsComplete host.toList ∧ widened.LookupsComplete host.toList)
    (hunpruned : d.unwidened.compile.grammar.Unpruned
        ⟨config.maxEmptyInflexions, config.minReplacementWordLen⟩ host ∧
      d.compile.grammar.Unpruned
        ⟨config.maxEmptyInflexions, config.minReplacementWordLen⟩ host) :
    ∃ n, ∀ budget budget' : Budget, budget.exhausted = false → budget'.exhausted = false →
      n ≤ budget.remaining → n ≤ budget'.remaining → ∀ w,
        w ∈ (widened.analyze host 0 budget').1 ↔ w ∈ (plain.analyze host 0 budget).1 := by
  have hg' := d.isWidening_compile.suffixing hg
  obtain ⟨n, hn⟩ := mem_analyze_iff_builds d.unwidened hplain hg hlookups.1 hunpruned.1
  obtain ⟨n', hn'⟩ := mem_analyze_iff_builds d hwidened hg' hlookups.2 hunpruned.2
  refine ⟨max n n', fun budget budget' hfresh hfresh' hle hle' w => ?_⟩
  -- Both sides are what the one grammar or the other builds, and these are the same.
  rw [hn budget hfresh (by omega), hn' budget' hfresh' (by omega), d.builds_compile_iff]

/-! ## Examples -/

/-- The sample nouns, with all inflexions widened that can be. -/
def widenedNouns : GrammarDraft :=
  (GrammarDraft.start { (default : GrammarConfig) with partialCompile := false }).add sampleNouns

/-- Whether an analyzer gives up no look-up in a word, as a test. -/
private def looksUp (g : Grammar) (a : Analyzer) (word : List Char) : Bool :=
  a.stems.completes word 0 && (AffixIndex.build g).toOption.all (·.completes word)

private theorem lookupsComplete_of_looksUp {g : Grammar} {config : ParserConfig} {a : Analyzer}
    {word : List Char} (hbuild : build g config = .ok a) (h : looksUp g a word = true) :
    a.LookupsComplete word := by
  obtain ⟨hstems, haffixes⟩ := Bool.and_eq_true_iff.1 h
  refine ⟨hstems, fun affixes haffix => ?_⟩
  rw [grammar, grammar_of_build hbuild] at haffix
  simpa [haffix, Except.toOption] using haffixes

theorem mem_analyze_widened_iff_sampleNouns :
    ∃ plain widened, build widenedNouns.unwidened.compile.grammar default = .ok plain ∧
      build widenedNouns.compile.grammar default = .ok widened ∧
      ∃ n, ∀ budget budget' : Budget, budget.exhausted = false → budget'.exhausted = false →
        n ≤ budget.remaining → n ≤ budget'.remaining → ∀ w,
          w ∈ (widened.analyze "catsm" 0 budget').1 ↔ w ∈ (plain.analyze "catsm" 0 budget).1 := by
  have hplain : ((build widenedNouns.unwidened.compile.grammar default).toOption.any fun a =>
      looksUp widenedNouns.unwidened.compile.grammar a "catsm".toList) = true := by
    decide +kernel
  have hwidened : ((build widenedNouns.compile.grammar default).toOption.any fun a =>
      looksUp widenedNouns.compile.grammar a "catsm".toList) = true := by
    decide +kernel
  obtain ⟨plain, hplain, hlookups⟩ := exists_eq_ok_of_any hplain
  obtain ⟨widened, hwidened, hlookups'⟩ := exists_eq_ok_of_any hwidened
  refine ⟨plain, widened, hplain, hwidened, ?_⟩
  apply mem_analyze_widened_iff widenedNouns hplain hwidened
  · decide +kernel
  · exact ⟨lookupsComplete_of_looksUp hplain hlookups,
      lookupsComplete_of_looksUp hwidened hlookups'⟩
  · -- A noun has two inflexions at most.
    constructor
    · exact Grammar.unpruned_of_shallow (n := 2) (by decide +kernel) (by decide) (by decide) _
    · exact Grammar.unpruned_of_shallow (n := 2) (by decide +kernel) (by decide) (by decide) _

/-- Verbs whose vowels go between the consonants of the root; the past tense is widened. -/
def sampleVerbs : GrammarDraft :=
  (GrammarDraft.start default).add { GrammarDocument.empty with
    paradigms := [
      ⟨"Verb", [.ofFlex ".<.>" "pst" "" ["Pattern"]], []⟩,
      ⟨"Pattern", [.ofFlex ".a.a" "pfv" "PFV" []], []⟩]
    lexemes := [⟨"ktb", "k.t.b.", ["Verb"], "V", "write", [], none, false, none⟩] }

/-- The join of the past tense with the vowels has no boundary between these, and so is found in a
word where the search without widening finds nothing, though it has steps left and nothing is
pruned. -/
theorem widening_adds_analyses :
    ∃ plain widened, build sampleVerbs.unwidened.compile.grammar default = .ok plain ∧
      build sampleVerbs.compile.grammar default = .ok widened ∧
      sampleVerbs.unwidened.compile.grammar.Unpruned ⟨2, 6⟩ "kaatb" ∧
      sampleVerbs.compile.grammar.Unpruned ⟨2, 6⟩ "kaatb" ∧
      (plain.analyze "kaatb" 0 (.fresh 1000)).1 = [] ∧
      (plain.analyze "kaatb" 0 (.fresh 1000)).2.exhausted = false ∧
      ∃ w ∈ (widened.analyze "kaatb" 0 (.fresh 1000)).1,
        w.wf = "kaatb" ∧ w.glossed = "k-a-a-tb" := by
  have hplain : ((build sampleVerbs.unwidened.compile.grammar default).toOption.any fun a =>
      (a.analyze "kaatb" 0 (.fresh 1000)).1.isEmpty &&
        !(a.analyze "kaatb" 0 (.fresh 1000)).2.exhausted) = true := by
    decide +kernel
  have hwidened : ((build sampleVerbs.compile.grammar default).toOption.any fun a =>
      (a.analyze "kaatb" 0 (.fresh 1000)).1.any fun w =>
        w.wf == "kaatb" && w.glossed == "k-a-a-tb") = true := by
    decide +kernel
  obtain ⟨plain, hplain, hnone⟩ := exists_eq_ok_of_any hplain
  obtain ⟨widened, hwidened, hsome⟩ := exists_eq_ok_of_any hwidened
  obtain ⟨hnone, hsteps⟩ := Bool.and_eq_true_iff.1 hnone
  obtain ⟨w, hw, hforms⟩ := List.any_eq_true.1 hsome
  obtain ⟨hwf, hglossed⟩ := Bool.and_eq_true_iff.1 hforms
  refine ⟨plain, widened, hplain, hwidened, ?_, ?_, List.isEmpty_iff.1 hnone, by simpa using hsteps,
    w, hw, by simpa using hwf, by simpa using hglossed⟩
  · exact Grammar.unpruned_of_shallow (n := 2) (by decide +kernel) (by decide) (by decide) _
  · exact Grammar.unpruned_of_shallow (n := 2) (by decide +kernel) (by decide) (by decide) _

end Analyzer

end Morphology
