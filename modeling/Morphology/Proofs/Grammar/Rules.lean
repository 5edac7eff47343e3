import Morphology.Parser
import Morphology.Proofs.Grammar.Entries

/-!
# Lexical rules without an index

Compiling files the rules of a document by stem and by lemma.  What becomes of an analysis is the
same as if all rules were gone through: those that name only a lemma, then those that name a stem,
each in the order of the document.

## Main definitions

* `FieldTest.IsOf` — a test is that of an entry
* `LexRule.fires` — a rule is meant for an analysis, and the analysis passes its tests
* `LexRule.firing` — the rules of a list that fire, in the order of their outputs
* `LexRule.scan` — what becomes of an analysis when all rules are gone through
* `LexRule.IsOf` — a rule is that of an entry
* `GrammarDocument.validRules` — the rules of a document, those of entries that become none left out

## Main statements

* `FieldTest.ofEntries_eq_ok_iff` — entries become tests one by one
* `LexRule.ofEntry_eq_ok_iff` — which entries become a rule, and which rule
* `Grammar.enrich_eq_scan` — rules that are filed make what a scan of them makes
* `Grammar.applyRules_eq_scan` — so it is for the grammar of every document
-/

namespace Morphology

/-! ## Tests of entries -/

namespace FieldTest

/-- A test is that of an entry: it is about the field that the entry names, and its pattern is the
one that the entry writes. -/
structure IsOf (t : FieldTest) (e : TestEntry) : Prop where
  field : t.field = Field.read e.field
  pattern : Pattern.read? e.pattern = some t.pattern

/-- An entry becomes a test just if its pattern can be read. -/
theorem map_readPattern_eq_ok_iff {origin : Origin} {e : TestEntry} {t : FieldTest} :
    (readPattern origin e.pattern).map (FieldTest.mk (Field.read e.field)) = .ok t ↔ t.IsOf e := by
  simp only [map_eq_ok_iff, readPattern_eq_ok_iff]
  constructor
  · rintro ⟨p, hp, rfl⟩
    exact ⟨rfl, hp⟩
  · intro h
    exact ⟨t.pattern, h.pattern, by rw [← h.field]⟩

/-- The tests of some entries are those of the entries, one by one. -/
theorem ofEntries_eq_ok_iff {origin : Origin} {entries : List TestEntry} {tests : List FieldTest} :
    ofEntries origin entries = .ok tests ↔ List.Forall₂ (fun e t => t.IsOf e) entries tests := by
  simp only [ofEntries, mapM_eq_ok_iff, map_readPattern_eq_ok_iff]

end FieldTest

/-! ## Going through all rules -/

namespace LexRule

/-- A rule is meant for an analysis: the lemma and the stem that it names are those of the
analysis. -/
def isFor (r : LexRule) (w : Wordform) : Bool :=
  r.headword.all (· == w.headword) && r.stem.all (· == w.stem)

/-- A rule is meant for an analysis, and the analysis passes all its tests. -/
def fires (r : LexRule) (w : Wordform) : Bool :=
  r.isFor w && r.tests.all (·.holdsFor w)

/-- What a rule that fires makes of an analysis. -/
def output (r : LexRule) (w : Wordform) : Wordform where
  wf := w.wf
  glossed := w.glossed
  gloss := r.gloss.getD w.gloss
  headword := r.newLemma.getD w.headword
  gramm := joinTags w.gramm r.gramm
  stem := w.stem
  otherData := w.otherData ++ r.otherData
  subwords := w.subwords

/-- The rules of a list that fire: those that name only a lemma, then those that name a stem. -/
def firing (rules : List LexRule) (w : Wordform) : List LexRule :=
  (rules.filter (·.stem.isNone) ++ rules.filter (·.stem.isSome)).filter (·.fires w)

/-- What becomes of an analysis when all rules of a list are gone through: it stays unless a rule
that fires replaces it, and every rule that fires adds its output. -/
def scan (rules : List LexRule) (w : Wordform) : List Wordform :=
  (if (firing rules w).any (·.mode == .replace) then [] else [w]) ++
    (firing rules w).map (·.output w)

/-- A rule is that of an entry, which names a lemma or a stem: it has a test for every test of the
entry, in the same order, and all else is taken over. -/
structure IsOf (r : LexRule) (e : LexRuleEntry) : Prop where
  named : e.headword.isSome = true ∨ e.stem.isSome = true
  tests : List.Forall₂ (fun test t => t.IsOf test) e.tests r.tests
  fields : r = ⟨e.headword, e.stem, r.tests, e.newLemma, e.gramm, e.gloss, e.otherData, e.mode⟩

variable {r : LexRule} {rules : List LexRule} {e : LexRuleEntry} {w : Wordform}

theorem enrich?_eq (r : LexRule) (w : Wordform) :
    r.enrich? w = if r.tests.all (·.holdsFor w) then some (r.output w) else none := rfl

/-- An entry becomes a rule if it names a lemma or a stem and its patterns can be read: `ofEntry`
does what `IsOf` says. -/
theorem ofEntry_eq_ok_iff : ofEntry e = .ok r ↔ r.IsOf e := by
  have hnamed : ¬ (e.headword.isNone && e.stem.isNone) = true ↔
      e.headword.isSome = true ∨ e.stem.isSome = true := by
    cases e.headword <;> cases e.stem <;> simp
  unfold ofEntry
  split
  · -- Without a lemma and a stem the entry is refused, and `IsOf` asks for one of them.
    rename_i hnone
    exact ⟨nofun, fun h => absurd hnone (hnamed.2 h.named)⟩
  · rename_i hsome
    rw [bind_eq_ok_iff]
    constructor
    · intro h
      obtain ⟨tests, htests, h⟩ := h
      obtain rfl := Except.ok.inj h
      exact ⟨hnamed.1 hsome, FieldTest.ofEntries_eq_ok_iff.1 htests, rfl⟩
    · intro h
      exact ⟨r.tests, FieldTest.ofEntries_eq_ok_iff.2 h.tests, congrArg _ h.fields.symm⟩

/-- A rule that names something is found under its lemma or its stem just if it is meant for the
analysis. -/
theorem firing_eq (hnamed : ∀ r ∈ rules, r.stem.isSome = true ∨ r.headword.isSome = true) :
    firing rules w =
      ((rules.filter fun r => r.stem.isNone && r.headword == some w.headword) ++
        (rules.filter fun r => r.stem == some w.stem).filter
          fun r => r.headword.all (· == w.headword)).filter fun r =>
            r.tests.all (·.holdsFor w) := by
  unfold firing
  rw [List.filter_append, List.filter_append]
  congr 1
  · -- Rules for a lemma alone are found under the lemma.
    rw [List.filter_filter, List.filter_filter]
    refine List.filter_congr fun r hr => ?_
    have hr := hnamed r hr
    cases hstem : r.stem with
    | some stem => simp
    | none =>
      -- A rule without a stem names a lemma, so that its lemma is not left open.
      cases hheadword : r.headword with
      | none => simp [hstem, hheadword] at hr
      | some headword => simp [fires, isFor, hstem, hheadword, Bool.and_comm]
  · -- Rules for a stem are found under the stem, and their lemma is compared then.
    rw [List.filter_filter, List.filter_filter, List.filter_filter]
    refine List.filter_congr fun r _ => ?_
    cases hstem : r.stem with
    | none => simp
    | some stem =>
      simp only [fires, isFor, hstem, Option.all_some, Option.isSome_some, Option.some_beq_some,
        Bool.beq_comm (a := stem)]
      ac_rfl

end LexRule

/-- The rules of the entries that become one, in the order of the document. -/
def GrammarDocument.validRules (doc : GrammarDocument) : List LexRule :=
  doc.lexRules.filterMap fun e => (LexRule.ofEntry e).toOption

/-! ## Rules that are filed -/

namespace Grammar

variable {g : Grammar} {rules : List LexRule}

/-- The rules of a list are filed: under their stem, or else under their lemma. -/
structure Files (g : Grammar) (rules : List LexRule) : Prop where
  named : ∀ r ∈ rules, r.stem.isSome = true ∨ r.headword.isSome = true
  byStem : ∀ stem, g.rulesForStem stem = rules.filter fun r => r.stem == some stem
  byLemma : ∀ headword, g.rulesForLemma headword =
    rules.filter fun r => r.stem.isNone && r.headword == some headword

theorem Files.rulesFor (h : g.Files rules) (w : Wordform) :
    (g.rulesFor w).filter (fun r => r.tests.all (·.holdsFor w)) = LexRule.firing rules w := by
  rw [LexRule.firing_eq h.named, Grammar.rulesFor, h.byStem, h.byLemma]

/-- Rules that are filed make of an analysis what a scan of the list makes of it. -/
theorem enrich_eq_scan (h : g.Files rules) (w : Wordform) : g.enrich w = LexRule.scan rules w := by
  have hmade : (g.rulesFor w).filterMap (fun r => (r.enrich? w).map fun w => (r.mode, w)) =
      (LexRule.firing rules w).map fun r => (r.mode, r.output w) := by
    rw [← h.rulesFor, ← List.filterMap_eq_map, List.filterMap_filter]
    refine List.filterMap_congr fun r _ => ?_
    rw [LexRule.enrich?_eq]
    split <;> rfl
  unfold enrich LexRule.scan
  rw [hmade]
  simp only [List.any_map, List.map_map]
  congr 1

/-- Where there are no rules, nothing is found under any name. -/
theorem rulesFor_eq_nil (h : g.hasRules = false) (w : Wordform) : g.rulesFor w = [] := by
  have hsizes : g.rulesByStem.size = 0 ∧ g.rulesByLemma.size = 0 := by
    simpa [hasRules] using h
  have hstem : g.rulesForStem w.stem = [] := by
    rw [rulesForStem, Table.get?, List.length_eq_zero_iff.1 hsizes.1]
    rfl
  have hlemma : g.rulesForLemma w.headword = [] := by
    rw [rulesForLemma, Table.get?, List.length_eq_zero_iff.1 hsizes.2]
    rfl
  rw [rulesFor, hstem, hlemma]
  rfl

/-- The shortcut for a grammar without rules changes nothing. -/
theorem applyRules_eq_flatMap (g : Grammar) (analyses : List Wordform) :
    g.applyRules analyses = analyses.flatMap g.enrich := by
  unfold applyRules
  split
  · rfl
  · rename_i hnone
    have henrich : g.enrich = fun w => [w] := by
      funext w
      rw [enrich, rulesFor_eq_nil (Bool.not_eq_true _ ▸ hnone)]
      rfl
    rw [henrich, List.flatMap_singleton']

end Grammar

/-! ## Compiled grammars -/

theorem GrammarDraft.files_compile (d : GrammarDraft) :
    d.compile.grammar.Files
      (d.entries.lexRules.filterMap fun e => (LexRule.ofEntry e).toOption) := by
  rw [← collect_eq_filterMap]
  refine ⟨fun r hr => ?_, rules_stem_fileRules _, rules_lemma_fileRules _⟩
  obtain ⟨e, -, he⟩ := exists_of_mem_collect hr
  exact isSome_or_isSome_of_ofEntry he

theorem GrammarDraft.lexRules_add (d : GrammarDraft) (doc : GrammarDocument) :
    (d.add doc).entries.lexRules = d.entries.lexRules ++ doc.lexRules := by
  unfold add
  cases doc.badAnalyses with
  | none =>
    cases doc.categories with
    | none => rfl
    | some v => cases v <;> rfl
  | some templates =>
    cases doc.categories with
    | none => rfl
    | some v => cases v <;> rfl

/-- The valid rules are those of the entries that become one, in the order of the entries. -/
theorem GrammarDocument.accounted_validRules (doc : GrammarDocument) :
    Accounted (fun e r => r.IsOf e) (fun e => ∀ r, ¬ LexRule.IsOf r e) doc.lexRules
      doc.validRules := by
  rw [validRules, ← collect_eq_filterMap]
  exact accounted_collect_of_iff (fun _ _ => LexRule.ofEntry_eq_ok_iff) doc.lexRules

/-- **The filed rules against a scan.**  For the grammar of every document and all analyses, the
rules found by lemma and by stem make what a `LexRule.scan` of all valid rules of the document
makes. The valid rules are those of the entries that name a lemma or a stem and whose patterns can
be read, in the order of the document: each `LexRule.IsOf` its entry, with a test for every test
there. -/
theorem Grammar.applyRules_eq_scan (config : GrammarConfig) (doc : GrammarDocument) :
    (∀ analyses, (ofDocument config doc).grammar.applyRules analyses =
      analyses.flatMap (LexRule.scan doc.validRules)) ∧
    Accounted (fun e r => r.IsOf e) (fun e => ∀ r, ¬ LexRule.IsOf r e) doc.lexRules
      doc.validRules := by
  have hfiles : (ofDocument config doc).grammar.Files doc.validRules := by
    have h := ((GrammarDraft.start config).add doc).files_compile
    rwa [GrammarDraft.lexRules_add] at h
  refine ⟨fun analyses => ?_, doc.accounted_validRules⟩
  rw [applyRules_eq_flatMap, funext (enrich_eq_scan hfiles)]

end Morphology
