import Morphology.Proofs.Search.Track

/-!
# Completeness of the search

In a grammar whose inflexions only follow stems, the search finds every wordform that the grammar
builds from a legal chain: it reads the stem, opens the first inflexion of the chain, and from there
on keeps on track until it accepts.

## Main definitions

* `Matcher.InStem` — the invariant of the search in the stem

## Main statements

* `Matcher.InStem.exists_move` — in the stem there is a move, to the next character or onto the
  track
* `Matcher.Spells.yields` — the search comes to the wordform
* `Analyzer.exists_mem_analyze` — with enough steps the wordform is among the analyses
-/

namespace Morphology

namespace Matcher

variable {m : Matcher} {st : SearchState} {p : Placement} {stem : List Char} {sub : SubLexeme}
  {chain rest : List InflexionId} {id : InflexionId}

/-! ## In the stem -/

/-- The stem is read, and nothing is opened yet. -/
structure InStem (p : Placement) (stem : List Char) (st : SearchState) : Prop where
  placement : st.placement = p
  current : st.current = none
  levels : st.levels = []
  derivations : st.derivations = []
  stemPos : st.stemPos ≤ stem.length
  pos : st.pos = (withoutBreaks (stem.take st.stemPos)).length

namespace InStem

/-- The word has the next character of the stem, unless that is a break. -/
theorem wordChar?_eq (h : Spells m p stem sub chain) (hs : InStem p stem st) {c : Char}
    (hc : stem[st.stemPos]? = some c) (hbreak : c ≠ morphBreak) : st.wordChar? = some c := by
  have hdrop : stem.drop st.stemPos = c :: stem.drop (st.stemPos + 1) := by
    rw [List.drop_eq_getElem?_toList_append, hc]
    rfl
  have hstem : withoutBreaks stem = withoutBreaks (stem.take st.stemPos) ++
      c :: withoutBreaks (stem.drop (st.stemPos + 1)) := by
    conv_lhs => rw [← List.take_append_drop st.stemPos stem, hdrop]
    simp [withoutBreaks, hbreak]
  rw [SearchState.wordChar?, hs.placement, h.word, hstem, hs.pos]
  simp

/-- A character of the stem is read in the word, a break is passed. -/
theorem exists_mem_stepStemChar (h : Spells m p stem sub chain) (hs : InStem p stem st) {c : Char}
    (hc : stem[st.stemPos]? = some c) : ∃ st' ∈ stepStemChar st c, InStem p stem st' := by
  obtain ⟨hlt, hget⟩ := List.getElem?_eq_some_iff.1 hc
  have htake : withoutBreaks (stem.take (st.stemPos + 1)) =
      withoutBreaks (stem.take st.stemPos) ++ withoutBreaks [c] := by
    rw [List.take_succ_eq_append_getElem hlt, hget]
    exact List.filter_append ..
  by_cases hbreak : c = morphBreak
  · have hskip : withoutBreaks [c] = [] := by simp [withoutBreaks, hbreak]
    refine ⟨{ st with stemPos := st.stemPos + 1 }, by simp [stepStemChar, hbreak], ?_⟩
    refine ⟨hs.placement, hs.current, hs.levels, hs.derivations, hlt, ?_⟩
    simp [htake, hs.pos, hskip]
  · have hspelled : withoutBreaks [c] = [c] := by simp [withoutBreaks, hbreak]
    -- In the stretch of the key the place is compared, elsewhere the character.
    have hmatched : (if st.placement.covers st.stemPos then
        st.pos == st.placement.wordStart + st.stemPos - st.placement.patternStart
        else st.wordChar?.any (agree c)) = true := by
      split
      · rename_i hcovers
        rw [hs.placement] at hcovers ⊢
        rw [hs.pos, h.aligned _ hlt hcovers, beq_self_eq_true]
      · simp [hs.wordChar?_eq h hc hbreak, agree]
    refine ⟨{ st with stemPos := st.stemPos + 1, pos := st.pos + 1 }, ?_, ?_⟩
    · simp only [stepStemChar, if_neg hbreak]
      rw [if_pos hmatched]
      exact List.mem_singleton_self _
    · refine ⟨hs.placement, hs.current, hs.levels, hs.derivations, hlt, ?_⟩
      simp [htake, hs.pos, hspelled]

/-- Before the last character of the stem there is a move to the next one. -/
theorem exists_move_of_char (h : Spells m p stem sub chain) (hs : InStem p stem st)
    (hlt : st.stemPos < stem.length) : ∃ st', Move m st st' ∧ InStem p stem st' := by
  obtain ⟨c, hc⟩ : ∃ c, stem[st.stemPos]? = some c := ⟨_, List.getElem?_eq_getElem hlt⟩
  have hne : c ≠ boundary := by
    rintro rfl
    exact h.plain (List.mem_of_getElem? hc)
  have hat : AtStem m st sub c := by
    refine ⟨hs.current, ?_, hs.placement ▸ h.known⟩
    rw [SearchState.stemChar?, hs.placement, h.pattern, List.getElem?_append_left hlt, hc]
  by_cases hfront : st.atFront
  · have hmark : InStem p stem st.markTried :=
      ⟨hs.placement, hs.current, hs.levels, hs.derivations, hs.stemPos, hs.pos⟩
    obtain ⟨st', hst', hin⟩ := hmark.exists_mem_stepStemChar h hc
    -- No inflexion may come before the stem.
    have hnone : m.stepSelf st.markTried sub.paradigm = [] := by
      rw [stepSelf, List.map_eq_nil_iff, List.filter_eq_nil_iff]
      intro id _ hself
      obtain ⟨i, hi, hself⟩ := Option.any_eq_true _ _ |>.1 hself
      exact Bool.false_ne_true ((h.startWithSelf_eq_false hi).symm.trans hself)
    exact ⟨st', .firstChar hat hne hfront hnone hst', hin⟩
  · obtain ⟨st', hst', hin⟩ := hs.exists_mem_stepStemChar h hc
    exact ⟨st', .stemChar hat hne hfront hst', hin⟩

/-- Behind the stem the first inflexion of the chain is to be opened. -/
theorem atOpening (h : Spells m p stem sub chain) (hs : InStem p stem st)
    (hend : st.stemPos = stem.length) (hchain : chain = id :: rest) :
    AtOpening m p chain id rest { st with stemPos := st.stemPos + 1 } := by
  have hpos : st.pos = (withoutBreaks stem).length := by
    rw [hs.pos, hend, List.take_length]
  exact {
    placement := hs.placement
    links := by simp [hs.levels, hchain]
    derivations := by simp [hs.derivations, SearchState.chain, hs.levels, Grammar.derivationsOf]
    stemPos := by simp [h.pattern, hend]
    pos := by
      show st.pos ≤ _
      rw [h.word, List.length_append, hpos]
      exact Nat.le_add_right ..
    text := by
      show p.word.drop st.pos = _ ++ m.aheadAll _ st.levels
      rw [h.word, hpos, List.drop_left, hs.levels, hchain]
      simp [aheadAll]
    closed := by simp [hs.levels] }

/-- In the stem there is a move, to the next character or to the first level. -/
theorem exists_move (h : Spells m p stem sub chain) (hs : InStem p stem st) :
    ∃ st', Move m st st' ∧ (InStem p stem st' ∨ ∃ rest, OnTrack m p chain rest st') := by
  rcases Nat.lt_or_eq_of_le hs.stemPos with hlt | hend
  · obtain ⟨st', hmove, hin⟩ := hs.exists_move_of_char h hlt
    exact ⟨st', hmove, .inl hin⟩
  · obtain ⟨id, rest, hchain⟩ := List.exists_cons_of_ne_nil h.chain_ne_nil
    have hat : AtStem m st sub boundary := by
      refine ⟨hs.current, ?_, hs.placement ▸ h.known⟩
      rw [SearchState.stemChar?, hs.placement, h.pattern, hend]
      simp
    have ho := hs.atOpening h hend hchain
    obtain ⟨start, hopen, hfollow⟩ := h.legal [] id rest hchain
    obtain rfl : start = sub.paradigm := hopen
    have hnil : SearchState.chain { st with stemPos := st.stemPos + 1 } = [] := by
      simp [SearchState.chain, hs.levels]
    have hid := ho.mem_mayFollow h (hnil ▸ hfollow)
    -- The stem has a character in front of its boundary, so it is behind.
    have hslot : (st.stemPos == 0) = false := by
      have := List.length_pos_iff.2 h.stem_ne_nil
      simp only [beq_eq_false_iff_ne]
      omega
    exact ⟨_, .openStem hat hs.levels (hslot ▸ hid), .inr ⟨rest, ho.onTrack h⟩⟩

/-- A word that ends in the stem is no reason to give up. -/
theorem canContinue (h : Spells m p stem sub chain) (hs : InStem p stem st) :
    m.canContinue st = true := by
  have hstem : st.wordDone = true →
      st.stemChar?.all (fun c => c == boundary || c == morphBreak) = true := by
    intro hword
    have hlen : p.word.length ≤ st.pos := by
      simpa [SearchState.wordDone, hs.placement] using hword
    rw [Option.all_eq_true]
    intro c hc
    rw [SearchState.stemChar?, hs.placement, h.pattern] at hc
    by_contra hread
    rw [Bool.or_eq_true, beq_iff_eq, beq_iff_eq, not_or] at hread
    -- A character that is to be read is in front of the boundary, and the word has it.
    have hlt : st.stemPos < stem.length := by
      apply lt_of_le_of_ne hs.stemPos
      intro heq
      apply hread.1
      simpa [heq] using hc.symm
    rw [List.getElem?_append_left hlt] at hc
    have hchar := hs.wordChar?_eq h hc hread.2
    rw [SearchState.wordChar?, hs.placement] at hchar
    have := (List.getElem?_eq_some_iff.1 hchar).1
    omega
  cases hword : st.wordDone with
  | false => simp [Matcher.canContinue, hword]
  | true => simp [Matcher.canContinue, hword, hs.levels, hstem hword]

end InStem

/-- The search comes to the wordform that the grammar builds from the chain. -/
theorem Spells.yields (h : Spells m p stem sub chain) {host : List Char} {maxEdits : Nat}
    {i : Inflexion} {w : Wordform} (hi : m.grammar.mergeChain? (chain.map (⟨·, []⟩)) = some i)
    (hw : m.grammar.buildWordform? p.sub i = some w)
    (hanswers : m.answers host maxEdits w.wf.toList = true) :
    m.Yields host maxEdits (.start p) w := by
  -- From every state in the stem or on track: the search ends, and it ends with the chain.
  have hyields (st : SearchState) (hacc : Acc (fun b a => m.Goes a b) st)
      (hst : InStem p stem st ∨ ∃ rest, OnTrack m p chain rest st) :
      m.Yields host maxEdits st w := by
    induction hacc with
    | intro st _ ih =>
      rw [yields_iff]
      cases hgo : m.canContinue st with
      | true =>
        refine .inr ⟨rfl, ?_⟩
        rcases hst with hs | ⟨rest, ht⟩
        · obtain ⟨st', hmove, hst'⟩ := hs.exists_move h
          have hstep := mem_step_iff.2 hmove
          exact ⟨st', hstep, ih st' ⟨hgo, hstep⟩ hst'⟩
        · obtain ⟨st', rest', hmove, ht'⟩ := ht.exists_move h hgo
          have hstep := mem_step_iff.2 hmove
          exact ⟨st', hstep, ih st' ⟨hgo, hstep⟩ (.inr ⟨rest', ht'⟩)⟩
      | false =>
        refine .inl ⟨rfl, ?_⟩
        rcases hst with hs | ⟨rest, ht⟩
        · exact absurd (hgo.symm.trans (hs.canContinue h)) Bool.false_ne_true
        · obtain ⟨hcomplete, hlinks⟩ := ht.isComplete h hgo
          simp [accept?, hcomplete, hlinks, hi, ht.placement, hw, hanswers]
  apply hyields (.start p) (acc_goes (.start m p))
  exact .inl ⟨rfl, rfl, rfl, rfl, Nat.zero_le _, by simp [SearchState.start, withoutBreaks]⟩

end Matcher

namespace Analyzer

variable {g : Grammar} {config : ParserConfig} {a : Analyzer}

/-- A stem at the front of a word is placed there, and the stretch of its key is where the rest of
the stem puts it. -/
theorem exists_placement (hbuild : build g config = .ok a) {id : SubLexemeId} {sub : SubLexeme}
    (hsub : g.subLexeme? id = some sub) {stem : List Char}
    (hpattern : sub.pattern = stem ++ [boundary])
    (hliteral : ∃ c ∈ stem, isLiteral c = true) {text : List Char}
    (hcompletes : a.stems.completes (withoutBreaks stem ++ text) 0 = true) :
    ∃ p ∈ a.placements (withoutBreaks stem ++ text) 0,
      p.word = withoutBreaks stem ++ text ∧ p.sub = id ∧ p.pattern = sub.pattern ∧
      ∀ k < stem.length, p.covers k = true →
        (withoutBreaks (stem.take k)).length = p.wordStart + k - p.patternStart := by
  obtain ⟨stems, affixes, incorporations, hstems, -, -, heq, -⟩ := build_eq_ok hbuild
  rw [heq] at hcompletes
  obtain ⟨front, key, back, found, hstem, hkey, hfound, hentry, hstart, hlength, hedits⟩ :=
    StemIndex.exists_mem_lookup hstems hsub hpattern hliteral hcompletes
  let p : Placement := ⟨withoutBreaks stem ++ text, id, sub.pattern, found.start, front.length,
    key.length⟩
  have hplace : a.placement? (withoutBreaks stem ++ text) found = some p := by
    simp [placement?, grammar, grammar_of_build hbuild, hentry, hsub, hedits, hlength, p]
  have hp : p ∈ a.placements (withoutBreaks stem ++ text) 0 := by
    refine List.mem_filterMap.2 ⟨found, List.mem_filter.2 ⟨?_, by simp⟩, hplace⟩
    rw [heq]
    exact hfound
  refine ⟨p, hp, rfl, rfl, rfl, ?_⟩
  intro k _ hcovers
  simp only [Placement.covers, Bool.and_eq_true, decide_eq_true_eq, p] at hcovers
  obtain ⟨j, rfl⟩ := Nat.exists_eq_add_of_le hcovers.1
  -- What is in front of a place in the key is the front and so much of the key.
  have htake : stem.take (front.length + j) = front ++ key.take j := by
    rw [hstem, List.append_assoc, List.take_length_add_append,
      List.take_append_of_le_length (by omega)]
  have hwhole : withoutBreaks (key.take j) = key.take j :=
    withoutBreaks_eq_self fun c hc => hkey c (List.mem_of_mem_take hc)
  rw [htake, withoutBreaks_append, hwhole, List.length_append, List.length_take]
  show _ = found.start + (front.length + j) - front.length
  omega

/-- The word that is spelled by a stem and the chain behind it has a placement that says so. -/
theorem exists_spells (d : GrammarDraft) (hbuild : build d.compile.grammar config = .ok a)
    (hg : d.compile.grammar.Suffixing) {id : SubLexemeId} {sub : SubLexeme}
    {chain : List InflexionId} {stem word : List Char}
    (hsub : d.compile.grammar.subLexeme? id = some sub)
    (hpattern : sub.pattern = stem ++ [boundary])
    (hplain : boundary ∉ stem) (hliteral : ∃ c ∈ stem, isLiteral c = true)
    (hne : chain ≠ []) (hlegal : d.compile.grammar.LegalChain
      ⟨config.maxEmptyInflexions, config.minReplacementWordLen⟩ sub.paradigm chain)
    (hlast : ∀ last ∈ chain.getLast?, ∀ i, d.compile.grammar.inflexion? last = some i →
      i.continues = false)
    (hword : word = withoutBreaks stem ++ d.compile.grammar.chainText chain)
    (hstems : a.stems.completes word 0 = true)
    (haffixes : ∀ affixes, AffixIndex.build d.compile.grammar = .ok affixes →
      affixes.completes word = true) :
    ∃ p ∈ a.placements word 0, p.sub = id ∧ a.matcher.Spells p stem sub chain := by
  have hgrammar := grammar_of_build hbuild
  obtain ⟨p, hp, hpword, hpsub, hppattern, haligned⟩ :=
    exists_placement hbuild hsub hpattern hliteral (hword ▸ hstems)
  rw [← hword] at hp hpword
  refine ⟨p, hp, hpsub, ?_⟩
  exact {
    pattern := hppattern.trans hpattern
    plain := hplain
    stem_ne_nil := by
      obtain ⟨c, hc, -⟩ := hliteral
      exact List.ne_nil_of_mem hc
    aligned := haligned
    word := by rw [hpword, hword, hgrammar]
    known := by rw [hgrammar, hpsub, hsub]
    chain_ne_nil := hne
    legal := by
      rw [hgrammar, limits_of_build hbuild]
      exact hlegal
    last := by
      rw [hgrammar]
      exact hlast
    wellFormed := by
      rw [hgrammar]
      exact fun _ _ hi => d.wellFormed_of_compile hi
    suffix := by
      rw [hgrammar]
      exact hg.suffix
    -- The index offers every inflexion whose key the word has.
    candidate := by
      intro id i pos hi hpos hkey
      obtain ⟨stems, affixes, incorporations, -, haffix, -, -, hmatcher, -⟩ := build_eq_ok hbuild
      rw [hgrammar] at hi
      rw [hpword] at hpos hkey ⊢
      rw [hmatcher]
      exact AffixIndex.mem_candidates haffix (haffixes affixes haffix) hi hpos
        (by simpa using hkey) }

/-- In a grammar whose inflexions only follow stems, the search comes to every wordform that is
built from a legal chain. -/
theorem exists_yields (d : GrammarDraft) (hbuild : build d.compile.grammar config = .ok a)
    (hg : d.compile.grammar.Suffixing) {id : SubLexemeId} {sub : SubLexeme}
    {chain : List InflexionId} {i : Inflexion} {w : Wordform}
    (hsub : d.compile.grammar.subLexeme? id = some sub)
    (hlegal : d.compile.grammar.LegalChain
      ⟨config.maxEmptyInflexions, config.minReplacementWordLen⟩ sub.paradigm chain)
    (hlast : d.compile.grammar.EndsClosed chain)
    (hi : d.compile.grammar.mergeChain? (chain.map (⟨·, []⟩)) = some i)
    (hw : d.compile.grammar.buildWordform? id i = some w)
    (hstems : a.stems.completes w.wf.toList 0 = true)
    (haffixes : ∀ affixes, AffixIndex.build d.compile.grammar = .ok affixes →
      affixes.completes w.wf.toList = true) :
    ∃ p ∈ a.placements w.wf.toList 0, a.matcher.Yields w.wf.toList 0 (.start p) w := by
  have hne : chain ≠ [] := by
    rintro rfl
    simp [Grammar.mergeChain?] at hi
  have hwf (id : InflexionId) (i : Inflexion) (hi : d.compile.grammar.inflexion? id = some i) :
      i.WellFormed := d.wellFormed_of_compile hi
  have hplace (id : InflexionId) (hid : id ∈ chain) (i : Inflexion)
      (hi : d.compile.grammar.inflexion? id = some i) :
      i.continuations ≤ 1 ∧ i.startWithSelf = false := by
    obtain ⟨i', hi', hlink⟩ := (hlegal.licensed hne).proper id hid
    obtain rfl : i = i' := Option.some.inj (hi.symm.trans hi')
    have hsuffix := hg.suffix id i hi hlink
    exact ⟨hsuffix.continuations, (hwf id i hi).startWithSelf_eq_false hsuffix.self⟩
  -- The wordform is the stem with the characters of the chain behind it.
  obtain ⟨hiwf, hself, htext⟩ := Grammar.flatMap_surface_of_mergeChain? hwf hplace hi
  obtain ⟨sub', stem, hsub', hpattern, hplain, hliteral, hspelled⟩ :=
    hg.wf_of_buildWordform? hiwf hself hw
  obtain rfl : sub = sub' := Option.some.inj (hsub.symm.trans hsub')
  rw [htext] at hspelled
  obtain ⟨p, hp, hpsub, hspells⟩ :=
    exists_spells d hbuild hg hsub hpattern hplain hliteral hne hlegal
    hlast hspelled hstems haffixes
  have hgrammar := grammar_of_build hbuild
  exact ⟨p, hp, hspells.yields (hgrammar ▸ hi) (hgrammar ▸ hpsub ▸ hw) (by simp [Matcher.answers])⟩

/-- **Completeness.**  In a grammar whose inflexions only follow stems (`Suffixing`), every wordform
that `buildWordform?` makes of a `LegalChain` is found by `analyze` with enough steps. -/
theorem exists_mem_analyze (d : GrammarDraft) (hbuild : build d.compile.grammar config = .ok a)
    (hg : d.compile.grammar.Suffixing) {id : SubLexemeId} {sub : SubLexeme}
    {chain : List InflexionId} {i : Inflexion} {w : Wordform}
    (hsub : d.compile.grammar.subLexeme? id = some sub)
    (hlegal : d.compile.grammar.LegalChain
      ⟨config.maxEmptyInflexions, config.minReplacementWordLen⟩ sub.paradigm chain)
    (hlast : ∀ last ∈ chain.getLast?, ∀ i, d.compile.grammar.inflexion? last = some i →
      i.continues = false)
    (hi : d.compile.grammar.mergeChain? (chain.map (⟨·, []⟩)) = some i)
    (hw : d.compile.grammar.buildWordform? id i = some w)
    (hstems : a.stems.completes w.wf.toList 0 = true)
    (haffixes : ∀ affixes, AffixIndex.build d.compile.grammar = .ok affixes →
      affixes.completes w.wf.toList = true) :
    ∃ n, ∀ budget : Budget, budget.exhausted = false → n ≤ budget.remaining →
      w ∈ (a.analyze w.wf 0 budget).1 := by
  obtain ⟨p, hp, hyields⟩ := exists_yields d hbuild hg hsub hlegal hlast hi hw hstems haffixes
  obtain ⟨n, hpass⟩ := exists_pass a w.wf.toList 0
  refine ⟨n, fun budget hexhausted hn => ?_⟩
  have hfound := (hpass budget hexhausted hn w).2 ⟨p, hp, hyields⟩
  simp [analyze, hfound]

end Analyzer

/-- Whether inflexions only follow stems is a matter of the lists of stems and inflexions. -/
theorem Grammar.suffixing_iff {g : Grammar} : g.Suffixing ↔
    (∀ e ∈ g.subLexemes, StemPattern.IsPlain e.2.pattern) ∧
      ∀ e ∈ g.paradigms.arena.toList, ∀ i ∈ e.2.inflexions, i.isLink = false → i.IsSuffix := by
  constructor
  · intro h
    refine ⟨fun e he => h.stem e.1 e.2 (mem_subLexemes_iff.1 he), fun e he i hi => ?_⟩
    obtain ⟨n, hn⟩ := List.getElem?_of_mem hi
    have hp : g.paradigm? e.1 = some e.2 := Arena.mem_toList_iff.1 he
    exact h.suffix ⟨e.1, n⟩ i (inflexion?_of_paradigm? hp hn)
  · rintro ⟨hstem, hsuffix⟩
    refine ⟨fun id sub hsub => hstem (id, sub) (mem_subLexemes_iff.2 hsub), fun id i hi => ?_⟩
    obtain ⟨p, hp, hget⟩ := paradigm?_of_inflexion? hi
    exact hsuffix (id.paradigm, p) (Arena.mem_toList_iff.2 hp) i (List.mem_of_getElem? hget)

instance (g : Grammar) : Decidable g.Suffixing :=
  decidable_of_iff _ Grammar.suffixing_iff.symm

theorem Analyzer.exists_mem_analyze_sampleNouns :
    ∃ a w, build (Grammar.ofDocument default sampleNouns).grammar default = .ok a ∧
      w.wf = "catsm" ∧ ∃ n, ∀ budget : Budget, budget.exhausted = false → n ≤ budget.remaining →
        w ∈ (a.analyze w.wf 0 budget).1 := by
  let g := (Grammar.ofDocument default sampleNouns).grammar
  have hg : g.Suffixing := by decide +kernel
  have hlegal : g.LegalChain ⟨2, 6⟩ ⟨0, 0⟩ [⟨⟨0, 0⟩, 1⟩, ⟨⟨0, 1⟩, 1⟩] := by
    have hnoun : ∃ p ∈ g.paradigm? ⟨0, 0⟩, p.isDerivational = false ∧ ∃ i ∈ p.inflexions[1]?,
        i.isLink = false ∧ i.continues = true ∧ (⟨0, 1⟩ : Handle) ∈ i.subsequent := by
      decide +kernel
    have hcase : ∃ p ∈ g.paradigm? ⟨0, 1⟩, p.isDerivational = false ∧ ∃ i ∈ p.inflexions[1]?,
        i.isLink = false := by
      decide +kernel
    obtain ⟨p, hp, hplain, i, hi, hlink, hcont, hsub⟩ := hnoun
    obtain ⟨q, hq, hqplain, j, hj, hjlink⟩ := hcase
    have hfirst : g.MayFollow ⟨2, 6⟩ [] ⟨0, 0⟩ ⟨⟨0, 0⟩, 1⟩ :=
      .own hp hplain hi hlink (by decide +kernel) (by decide +kernel)
    have hsecond : g.MayFollow ⟨2, 6⟩ [⟨⟨0, 0⟩, 1⟩] ⟨0, 1⟩ ⟨⟨0, 1⟩, 1⟩ :=
      .own hq hqplain hj hjlink (by decide +kernel) (by decide +kernel)
    have hopen : g.IsOpen ⟨0, 0⟩ [⟨⟨0, 0⟩, 1⟩] ⟨0, 1⟩ :=
      ⟨i, Grammar.inflexion?_of_paradigm? hp hi, hcont, hsub⟩
    exact (Grammar.LegalChain.nil.concat rfl hfirst).concat hopen hsecond
  have hsub : ∃ sub ∈ g.subLexeme? ⟨⟨1, 0⟩, 0⟩, sub.paradigm = ⟨0, 0⟩ := by decide +kernel
  have hlast : ∀ i ∈ g.inflexion? ⟨⟨0, 1⟩, 1⟩, i.continues = false := by decide +kernel
  have hspelled : ∃ i ∈ g.mergeChain? ([⟨⟨0, 0⟩, 1⟩, ⟨⟨0, 1⟩, 1⟩].map (⟨·, []⟩)),
      ∃ w ∈ g.buildWordform? ⟨⟨1, 0⟩, 0⟩ i, w.wf = "catsm" := by
    decide +kernel
  have hstems : ((build g default).toOption.any fun a => a.stems.completes "catsm".toList 0) =
      true := by
    decide +kernel
  have haffixes : ((AffixIndex.build g).toOption.all fun affixes =>
      affixes.completes "catsm".toList) = true := by
    decide +kernel
  obtain ⟨a, hbuild, hstems⟩ := exists_eq_ok_of_any hstems
  obtain ⟨sub, hsub, hparadigm⟩ := hsub
  obtain ⟨i, hi, w, hw, hwf⟩ := hspelled
  refine ⟨a, w, hbuild, hwf, ?_⟩
  apply exists_mem_analyze ((GrammarDraft.start default).add sampleNouns) hbuild hg hsub
    (hparadigm ▸ hlegal) ?_ (Option.mem_def.1 hi) hw
  · rw [hwf]
    exact hstems
  · intro affixes h
    rw [hwf]
    have h : AffixIndex.build g = .ok affixes := h
    simpa [h, Except.toOption] using haffixes
  · intro last hmem j hj
    obtain rfl : ⟨⟨0, 1⟩, 1⟩ = last := by simpa using hmem
    exact hlast j hj

end Morphology
