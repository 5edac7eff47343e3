import Mathlib.Data.List.Nodup
import Morphology.Proofs.Grammar.Forks
import Morphology.Proofs.Search.Budget
import Morphology.Proofs.Search.Soundness

/-!
# Derivations in a search

The derivational paradigms of a word come in an order: no derivation is used twice, and of the forks
of one source each is of a lower recursion class than those before it.  However a fork is entered,
through the link of its source, through the paradigm of all its forks or as the continuation of
another fork, it is checked against all derivations used so far; so the order holds in every state
that a search comes to.

## Main definitions

* `Grammar.Unrestricted` — none of some paradigms rules out a later one
* `Grammar.derivationNames` — the derivations that some paradigms say something about
* `GrammarDraft.Descends` — the forks of each source among some paradigms descend in their classes

## Main statements

* `Matcher.unrestricted_of_reaches` — the search keeps to what its derivations rule out
* `GrammarDraft.nodup_derivationNames`, `GrammarDraft.descends_of_unrestricted` — what this means
  for the names of the derivations, and for the classes of their links
* `Analyzer.derivations_descend` — the order of the derivations in every state reached
-/

namespace Morphology

/-! ## Restrictions -/

/-- None of some paradigms rules out the derivation of a later one. -/
def Grammar.Unrestricted (g : Grammar) (hs : List Handle) : Prop :=
  hs.Pairwise fun h h' => ∀ p q info, g.paradigm? h = some p → g.paradigm? h' = some q →
    q.derivation = some info → p.restricts info.derivation = false

theorem Grammar.Licensed.unrestricted_derivationsOf {g : Grammar} {limits : SearchLimits}
    {start : Handle} {chain : List InflexionId} (h : g.Licensed limits start chain) :
    g.Unrestricted (g.derivationsOf chain) := by
  apply List.Pairwise.filter
  exact List.pairwise_map.2 h.unrestricted

namespace Matcher

variable {m : Matcher} {start : Placement} {st : SearchState}

/-- A search keeps to what its derivations rule out. -/
theorem unrestricted_of_reaches (hown : m.CandidatesOwned)
    (hinc : ∀ word pos sub length, (sub, length) ∈ m.incorporations word pos →
      m.grammar.MayBeIncorporated sub)
    (hreach : m.Reaches (.start start) st) :
    st.derivations = m.grammar.derivationsOf st.chain ∧ m.grammar.Unrestricted st.derivations := by
  have hsound : m.Sound start st := .of_reaches hown hinc hreach
  refine ⟨hsound.derivations, ?_⟩
  rw [hsound.derivations]
  by_cases hnil : st.chain = []
  · rw [hnil]
    exact List.Pairwise.nil
  · obtain ⟨sub, -, hlicensed⟩ := exists_licensed_of_reaches hown hinc hreach hnil
    exact hlicensed.unrestricted_derivationsOf

end Matcher

/-! ## What restrictions mean -/

namespace Grammar

/-- The derivations that some paradigms say something about, in their order. -/
def derivationNames (g : Grammar) (hs : List Handle) : List String :=
  (hs.filterMap fun h => (g.paradigm? h).bind (·.derivation)).map (·.derivation)

/-- The forks of a source among some paradigms. -/
def forksOf (g : Grammar) (source : String) (hs : List Handle) : List Handle :=
  hs.filter fun h => (g.paradigm? h).any (·.comesFrom source)

end Grammar

namespace GrammarDraft

variable {d : GrammarDraft} {hs : List Handle}

/-- Of the forks of one source among some paradigms, each is of a lower class than those before
it. -/
def Descends (d : GrammarDraft) (hs : List Handle) : Prop :=
  hs.Pairwise fun h h' => ∀ p q link link', ∀ source ∈ d.sources,
    d.compile.grammar.paradigm? h = some p → d.compile.grammar.paradigm? h' = some q →
      p.IsForkOf d.entries.derivations source link →
        q.IsForkOf d.entries.derivations source link' → link'.recursClass < link.recursClass

/-- A derivation that no paradigm before rules out is none of those before. -/
theorem nodup_derivationNames (hfree : d.compile.grammar.Unrestricted hs) :
    (d.compile.grammar.derivationNames hs).Nodup := by
  rw [Grammar.derivationNames, List.Nodup, List.pairwise_map, List.pairwise_filterMap]
  refine hfree.imp fun hfree info hinfo info' hinfo' heq => ?_
  obtain ⟨p, hp, hinfo⟩ := Option.bind_eq_some_iff.1 hinfo
  obtain ⟨q, hq, hinfo'⟩ := Option.bind_eq_some_iff.1 hinfo'
  -- The earlier paradigm rules out its own derivation.
  have hres := restricts_derivation hp hinfo
  rw [heq, hfree p q info' hp hq hinfo'] at hres
  exact Bool.false_ne_true hres

theorem descends_of_unrestricted (hfree : d.compile.grammar.Unrestricted hs) : d.Descends hs := by
  refine hfree.imp fun hfree p q link link' source hsource hp hq hfork hfork' => ?_
  obtain ⟨info, hinfo, hderivation⟩ := Option.map_eq_some_iff.1 hfork'.derivation
  have hpq := hfree p q info hp hq hinfo
  rw [hderivation] at hpq
  exact recursClass_lt_of_unrestricted hp hsource hfork hfork' hpq

/-- Forks that descend are no more than there are classes. -/
theorem Descends.length_forksOf_le (hdescend : d.Descends hs) {source : ParadigmEntry}
    (hsource : source ∈ d.sources) : (d.compile.grammar.forksOf source.name hs).length ≤
      (groupByClass (Paradigms.resolveLinks d.entries.derivations source).1).length := by
  have hforks : ∀ h ∈ d.compile.grammar.forksOf source.name hs, ∃ p link,
      d.compile.grammar.paradigm? h = some p ∧
        p.IsForkOf d.entries.derivations source link := by
    intro h hh
    obtain ⟨p, hp, hfrom⟩ := (Option.any_eq_true _ _).1 (List.mem_filter.1 hh).2
    obtain ⟨link, hfork⟩ := exists_isForkOf_of_comesFrom hp hsource hfrom
    exact ⟨p, link, hp, hfork⟩
  choose! made link hmade hfork using hforks
  -- The classes of the forks descend, so that no class comes twice.
  have hclasses : ((d.compile.grammar.forksOf source.name hs).map fun h =>
      (link h).recursClass).Nodup := by
    rw [List.Nodup, List.pairwise_map]
    refine (List.Pairwise.filter _ hdescend).imp_of_mem fun hh hh' hlt => ?_
    apply Nat.ne_of_gt
    exact hlt _ _ _ _ source hsource (hmade _ hh) (hmade _ hh') (hfork _ hh) (hfork _ hh')
  have hsub : ((d.compile.grammar.forksOf source.name hs).map fun h => (link h).recursClass) ⊆
      (groupByClass (Paradigms.resolveLinks d.entries.derivations source).1).map (·.1) := by
    intro c hc
    obtain ⟨h, hh, rfl⟩ := List.mem_map.1 hc
    obtain ⟨entry, hknown⟩ := (hfork h hh).known
    rw [map_groupByClass, mem_numberSet]
    exact List.mem_map.2 ⟨_, hknown, rfl⟩
  simpa using (List.subperm_of_subset hclasses hsub).length_le

end GrammarDraft

/-! ## The order of derivations -/

namespace Analyzer

/-- **Derivations descend.**  In every state that a search `Reaches`, the derivational paradigms are
those of the levels (`derivationsOf`), no derivation comes twice, those that say something about a
derivation are forks (`IsForkOf`), each fork of a source is of a lower class than those of the same
source before it (`Descends`), and a source has no more forks there than it has classes. -/
theorem derivations_descend {d : GrammarDraft} {config : ParserConfig} {a : Analyzer}
    (hbuild : build d.compile.grammar config = .ok a) {start : Placement} {st : SearchState}
    (hreach : a.matcher.Reaches (.start start) st) :
    st.derivations = d.compile.grammar.derivationsOf st.chain ∧
    (d.compile.grammar.derivationNames st.derivations).Nodup ∧
    (∀ h ∈ st.derivations, ∀ p info, d.compile.grammar.paradigm? h = some p →
      p.derivation = some info →
        ∃ source ∈ d.sources, ∃ link, p.IsForkOf d.entries.derivations source link) ∧
    d.Descends st.derivations ∧
    ∀ source ∈ d.sources, (d.compile.grammar.forksOf source.name st.derivations).length ≤
      (groupByClass (Paradigms.resolveLinks d.entries.derivations source).1).length := by
  have hgrammar := grammar_of_build hbuild
  obtain ⟨hlevels, hfree⟩ :=
    Matcher.unrestricted_of_reaches (candidatesOwned_of_build hbuild)
      (mayBeIncorporated_of_build hbuild) hreach
  rw [hgrammar] at hlevels hfree
  have hdescend := GrammarDraft.descends_of_unrestricted hfree
  exact ⟨hlevels, GrammarDraft.nodup_derivationNames hfree,
    fun _ _ _ _ hp hinfo => GrammarDraft.exists_isForkOf hp hinfo, hdescend,
    fun _ hsource => hdescend.length_forksOf_le hsource⟩

/-- Verbs with two derivations, of which the second may be followed by the first. -/
def sampleDerivations : GrammarDocument :=
  { GrammarDocument.empty with
    paradigms := [⟨"Verb", [.ofFlex "." "inf" "" []], [⟨"caus", 0, []⟩, ⟨"freq", 1, []⟩]⟩]
    derivations := [
      ⟨"caus", [.ofFlex ".a" "caus" "CAUS" []], []⟩,
      ⟨"freq", [.ofFlex ".b" "freq" "FREQ" []], []⟩]
    lexemes := [⟨"ko", "ko.", ["Verb"], "V", "do", [], none, false, none⟩] }

theorem derivations_descend_sampleDerivations :
    ∃ a st,
      build ((GrammarDraft.start default).add sampleDerivations).compile.grammar default = .ok a ∧
      a.matcher.Reaches (.start ⟨"koba".toList, ⟨⟨1, 0⟩, 0⟩, "ko.".toList, 0, 0, 2⟩) st ∧
      ((GrammarDraft.start default).add sampleDerivations).compile.grammar.derivationNames
        st.derivations = ["freq", "caus"] ∧
      ((GrammarDraft.start default).add sampleDerivations).Descends st.derivations := by
  have hfound : ((build ((GrammarDraft.start default).add sampleDerivations).compile.grammar
      default).toOption.any fun a =>
        (a.matcher.visit 50 [.start ⟨"koba".toList, ⟨⟨1, 0⟩, 0⟩, "ko.".toList, 0, 0, 2⟩]).1.any
          fun st => ((GrammarDraft.start default).add sampleDerivations).compile.grammar.derivationNames
            st.derivations == ["freq", "caus"]) = true := by
    decide +kernel
  obtain ⟨a, hbuild, hvisited⟩ := exists_eq_ok_of_any hfound
  obtain ⟨st, hst, hnames⟩ := List.any_eq_true.1 hvisited
  obtain ⟨first, hfirst, hreach⟩ := Matcher.exists_reaches_of_mem_visit hst
  obtain rfl := List.mem_singleton.1 hfirst
  exact ⟨a, st, hbuild, hreach, beq_iff_eq.1 hnames, (derivations_descend hbuild hreach).2.2.2.1⟩

end Analyzer

end Morphology
