import Morphology.Proofs.Search.Completeness
import Morphology.Proofs.Search.KeyReading

/-!
# The analyses of suffixing grammars

Where inflexions only follow stems, the analyses of a word are the wordforms with its surface that
are built from legal chains, and no others.

## Main definitions

* `Matcher.Entered` — behind a continuation that is passed there is a further level
* `Grammar.Unpruned` — no chain for a word breaks a limit on repeats or on empty inflexions
* `Grammar.Shallow` — paradigms from which all chains are short

## Main statements

* `Matcher.Entered.move` — every move keeps the invariant
* `Analyzer.mem_analyze_iff_legal` — the analyses are the wordforms of legal chains
* `Analyzer.mem_analyze_iff_builds` — and, if nothing is pruned, all wordforms that are built
-/

namespace Morphology

namespace Matcher

variable {m : Matcher} {st st' : SearchState}

/-! ## Continuations that are passed -/

/-- A level that is behind a continuation has a level below it. -/
def Entered (m : Matcher) (st : SearchState) : Prop :=
  ∀ n l, st.levels[n]? = some l →
    (∃ part ∈ (m.grammar.partsOf l.link.inflexion).take l.part, part.role = .continuation) →
    n + 1 < st.levels.length

theorem entered_start (m : Matcher) (p : Placement) : Entered m (.start p) := by
  intro n l hl
  simp [SearchState.start] at hl

/-- Behind one more part is what was behind the parts before, and this part: `Entered` stays
true. -/
theorem Entered.modifyLevel (h : Entered m st) {level : Nat} {l : Level} {i : Inflexion}
    {part : FlexPart} (hat : AtPart m st level l i part) {f : Level → Level}
    (hlink : ∀ l, (f l).link.inflexion = l.link.inflexion) (hpart : ∀ l, (f l).part ≤ l.part + 1)
    (hrole : part.role = .continuation → level + 1 < st.levels.length) :
    Entered m (st.modifyLevel level f) := by
  intro n l' hl' hpassed
  rw [SearchState.modifyLevel_levels, List.length_modify]
  obtain ⟨l₀, hl₀, rfl⟩ := SearchState.getElem?_modifyLevel.1 hl'
  obtain ⟨passed, hmem, hcont⟩ := hpassed
  split at hmem
  · rename_i heq
    subst heq
    obtain rfl : l = l₀ := Option.some.inj (hat.level.symm.trans hl₀)
    rw [hlink] at hmem
    have hmem := List.take_subset_take_left _ (hpart l) hmem
    rw [List.take_add_one, Grammar.partsOf_eq hat.inflexion, hat.part, Option.toList_some] at hmem
    rcases List.mem_append.1 hmem with hmem | hmem
    · -- Passed before.
      refine h level l hl₀ ⟨passed, ?_, hcont⟩
      rwa [Grammar.partsOf_eq hat.inflexion]
    · -- Passed now.
      obtain rfl := List.mem_singleton.1 hmem
      exact hrole hcont
  · exact h n l₀ hl₀ ⟨passed, hmem, hcont⟩

/-- To pass a part that is no continuation enters nothing. -/
theorem Entered.nextPart (h : Entered m st) {level : Nat} {l : Level} {i : Inflexion}
    {part : FlexPart} (hat : AtPart m st level l i part) (hrole : part.role ≠ .continuation) :
    Entered m (st.modifyLevel level (·.nextPart)) :=
  h.modifyLevel hat (fun _ => rfl) (fun _ => le_rfl) fun hcont => absurd hcont hrole

/-- A new level is below all others, and nothing of it is passed. -/
theorem entered_openLevel (m : Matcher) (st : SearchState) (id : InflexionId) :
    Entered m (m.openLevel st id) := by
  intro n l hl hpassed
  rw [openLevel_levels] at hl ⊢
  rw [List.length_append, List.length_singleton]
  have hlt := (List.getElem?_eq_some_iff.1 hl).1
  rw [List.length_append, List.length_singleton] at hlt
  rcases Nat.lt_or_eq_of_le (Nat.le_of_lt_succ hlt) with hn | rfl
  · omega
  · obtain rfl : .start id = l := by simpa using hl
    obtain ⟨part, hmem, -⟩ := hpassed
    exact absurd hmem (by simp [Level.start])

/-- Every `Move` keeps the invariant `Entered`. -/
theorem Entered.move (h : Entered m st) (hmove : Move m st st') : Entered m st' := by
  -- Only a continuation opens a level, and no boundary or text is one.
  have hboundary {part : FlexPart} (hrole : part.role.isBoundary = true) :
      part.role ≠ .continuation := by
    rintro heq
    rw [heq] at hrole
    exact absurd hrole (by decide)
  have hmarker {part : FlexPart} (hrole : part.role.isMarker = false) :
      part.role ≠ .continuation := by
    rintro heq
    rw [heq] at hrole
    exact absurd hrole (by decide)
  cases hmove with
  | stemChar _ _ _ hread =>
    obtain ⟨pos, rfl⟩ := eq_of_mem_stepStemChar hread
    exact h
  | firstChar _ _ _ _ hread =>
    obtain ⟨pos, rfl⟩ := eq_of_mem_stepStemChar hread
    exact h
  | openFront _ _ _ _ _ _ => exact entered_openLevel m _ _
  | passFront _ _ _ _ => exact h
  | openStem _ _ _ => exact entered_openLevel m _ _
  | enterFirst _ _ => exact h
  | leaveLevel _ _ _ _ => exact h
  | handOver hat hrole _ => exact h.nextPart hat (hboundary hrole)
  | passMark hat hrole =>
    rcases hrole with ⟨hrole, -⟩ | hrole
    · exact h.nextPart hat (hboundary hrole)
    · exact h.nextPart hat (by simp [hrole])
  | enterNext hat _ hbelow =>
    exact h.modifyLevel hat (fun _ => rfl) (fun _ => le_rfl) fun _ => hbelow
  | openNext _ _ _ _ _ => exact entered_openLevel m _ _
  | incorporate hat hrole _ =>
    exact h.modifyLevel hat (fun _ => rfl) (fun _ => le_rfl) fun hcont => by simp [hrole] at hcont
  | endPart hat hrole _ => exact h.nextPart hat (hmarker hrole)
  | readChar hat hrole _ _ =>
    exact h.modifyLevel hat (fun _ => rfl) (fun _ => Nat.le_succ _) fun hcont =>
      absurd hcont (hmarker hrole)

/-- Behind a stem that ends with a boundary, the last level of a state that is accepted does not
continue: the search does not end before all its parts are passed. -/
theorem Entered.endsClosed (h : Entered m st) (hend : m.canContinue st = false)
    (hcomplete : m.isComplete st = true) (hstem : st.placement.endsWithBoundary = true) :
    m.grammar.EndsClosed st.chain := by
  intro id hid i hi
  obtain ⟨last, hlast, rfl⟩ : ∃ last, st.levels.getLast? = some last ∧
      last.link.inflexion = id := by
    simpa [SearchState.chain] using hid
  have hi' : m.inflexionOf? last = some i := hi
  simp only [isComplete, Bool.and_eq_true] at hcomplete
  obtain ⟨⟨⟨hword, -⟩, -⟩, hfinished⟩ := hcomplete
  have hfinished := List.all_eq_true.1 hfinished last (List.mem_of_getLast? hlast)
  simp only [canContinue, hword, hlast, if_true] at hend
  have hpassed : i.parts[last.part]? = none := by
    cases hpart : i.parts[last.part]? with
    | none => rfl
    | some part =>
      have hat : m.partOf? last = some part := by simp [partOf?, hi', hpart]
      have hdrop : i.parts.drop last.part = part :: i.parts.drop (last.part + 1) := by
        rw [List.drop_eq_getElem?_toList_append, hpart]
        rfl
      -- What is left of the part has been read, and so the search passes it before it ends.
      have hread := (surfaces_of_isFinished hi' hfinished hdrop).1
      simp only [hat] at hend
      cases hrole : part.role <;> simp_all [Role.isMarker]
  by_contra hcont
  rw [Bool.not_eq_false] at hcont
  obtain ⟨part, hmem, hrole⟩ := List.any_eq_true.1 hcont
  rw [List.getLast?_eq_getElem?] at hlast
  have hbelow := h _ last hlast ⟨part, ?_, by simpa using hrole⟩
  · -- A level below the last one would be open.
    omega
  · rw [Grammar.partsOf_eq hi', List.take_of_length_le (List.getElem?_eq_none_iff.1 hpassed)]
    exact hmem

end Matcher

namespace Analyzer

variable {g : Grammar} {config : ParserConfig} {a : Analyzer} {host : List Char} {p : Placement}
  {w : Wordform}

/-! ## Wordforms of legal chains -/

/-- A placement has the stem of its sub-lexeme. -/
theorem pattern_of_mem_placements (hbuild : build g config = .ok a) {k : Nat}
    (hp : p ∈ a.placements host k) :
    ∃ sub, g.subLexeme? p.sub = some sub ∧ p.pattern = sub.pattern := by
  obtain ⟨found, -, hplace⟩ := List.mem_filterMap.1 hp
  obtain ⟨sub, hsub, rfl⟩ := Option.map_eq_some_iff.1 hplace
  rw [grammar, grammar_of_build hbuild] at hsub
  exact ⟨sub, hsub, rfl⟩

/-- Every stem is in the index, so no wordforms are generated beforehand. -/
theorem generated_eq_nil (hbuild : build g config = .ok a) (hg : g.Suffixing) (host : String) :
    a.generated host = [] := by
  obtain ⟨stems, _, _, hstems, -, -, -, -, hpregenerated⟩ := build_eq_ok hbuild
  have hkeyless : stems.keyless = [] := by
    apply StemIndex.keyless_eq_nil hstems
    intro id sub hsub
    obtain ⟨stem, hpattern, -, hliteral⟩ := hg.stem id sub hsub
    obtain ⟨front, key, back, -, -, -, hkey⟩ :=
      StemIndex.exists_keyOf?_eq config.maxStemStartLen id hpattern hliteral
    simp [hkey]
  simp [generated, hpregenerated, hkeyless]

/-- A wordform that the search yields has the surface of the word, and is built from a `LegalChain`
that `EndsClosed`. -/
theorem exists_legal_of_yields (hbuild : build g config = .ok a) (hg : g.Suffixing)
    (hp : p ∈ a.placements host 0) (h : a.matcher.Yields host 0 (.start p) w) :
    w.wf.toList = host ∧ ∃ sub chain i, g.subLexeme? p.sub = some sub ∧
      g.LegalChain ⟨config.maxEmptyInflexions, config.minReplacementWordLen⟩ sub.paradigm chain ∧
      g.EndsClosed chain ∧ g.mergeChain? (chain.map (⟨·, []⟩)) = some i ∧
      g.buildWordform? p.sub i = some w := by
  have hgrammar := grammar_of_build hbuild
  have hown := candidatesOwned_of_build hbuild
  have hinc := mayBeIncorporated_of_build hbuild
  obtain ⟨last, hreach, hend, hacc⟩ := h
  have hsound : a.matcher.Sound p last := .of_reaches hown hinc hreach
  have hentered : a.matcher.Entered last :=
    hreach.keeps (fun _ _ h hmove => h.move hmove) (Matcher.entered_start a.matcher p)
  obtain ⟨hcomplete, hanswers, i, hi, hbuilt⟩ := Matcher.of_accept?_eq_some hacc
  rw [hsound.placement, hgrammar] at hbuilt
  rw [hgrammar] at hi
  obtain ⟨sub, hsub, hpattern⟩ := pattern_of_mem_placements hbuild hp
  obtain ⟨stem, hplain, -⟩ := hg.stem p.sub sub hsub
  have hback : last.placement.endsWithBoundary = true := by
    simp [Placement.endsWithBoundary, hsound.placement, hpattern, hplain]
  -- Suffixes have no places for stems, so nothing is incorporated.
  have hlinks : last.levels.map (·.link) = last.chain.map (⟨·, []⟩) := by
    rw [SearchState.chain, List.map_map]
    apply List.map_congr_left
    intro l hl
    have hnone : l.link.incorporated = [] := by
      rw [List.eq_nil_iff_forall_not_mem]
      intro inc hmem
      obtain ⟨-, j, part, hj, hpart, hrole⟩ := hsound.incorporates l hl inc hmem
      rw [hgrammar] at hj
      have hpart := List.mem_of_getElem? hpart
      have hproper : j.isLink = false := by simp [Inflexion.isLink, List.ne_nil_of_mem hpart]
      have := List.any_eq_false.1 (hg.suffix _ j hj hproper).incorporates part hpart
      exact this (by simpa using hrole)
    obtain ⟨⟨id, incorporated⟩, _, _⟩ := l
    exact congrArg (ChainLink.mk id) hnone
  have hlegal := hsound.legal sub (by rw [hgrammar, hsub])
  rw [hgrammar, show a.matcher.limits = _ from limits_of_build hbuild] at hlegal
  refine ⟨?_, sub, last.chain, i, hsub, hlegal, ?_, hlinks ▸ hi, hbuilt⟩
  · simpa [Matcher.answers] using hanswers
  · have := hentered.endsClosed hend hcomplete hback
    rwa [hgrammar] at this

/-! ## Analyses without edits -/

/-- No look-up of stems or affixes in a word is given up. -/
structure LookupsComplete (a : Analyzer) (word : List Char) : Prop where
  stems : a.stems.completes word 0 = true
  affixes : ∀ affixes, AffixIndex.build a.grammar = .ok affixes → affixes.completes word = true

/-- **The analyses of a suffixing grammar.**  In a grammar whose inflexions only follow stems
(`Suffixing`), the analyses of a word are the wordforms with its surface that are built from a
`LegalChain` which `Concludes`. -/
theorem mem_analyze_iff_legal (d : GrammarDraft) (hbuild : build d.compile.grammar config = .ok a)
    (hg : d.compile.grammar.Suffixing) {host : String} (hlookups : a.LookupsComplete host.toList) :
    ∃ n, ∀ budget : Budget, budget.exhausted = false → n ≤ budget.remaining → ∀ w,
      w ∈ (a.analyze host 0 budget).1 ↔ w.wf = host ∧ ∃ id sub chain i,
        d.compile.grammar.subLexeme? id = some sub ∧
        d.compile.grammar.LegalChain ⟨config.maxEmptyInflexions, config.minReplacementWordLen⟩
          sub.paradigm chain ∧
        d.compile.grammar.Concludes [] sub.paradigm chain i ∧
        d.compile.grammar.buildWordform? id i = some w := by
  obtain ⟨n, hpass⟩ := exists_pass a host.toList 0
  refine ⟨n, fun budget hexhausted hn w => ?_⟩
  have hanalyze : (a.analyze host 0 budget).1 = (a.pass host.toList 0 budget).1 := by
    simp [analyze, generated_eq_nil hbuild hg]
  rw [hanalyze, hpass budget hexhausted hn]
  constructor
  · -- What is found is built so.
    rintro ⟨p, hp, hyields⟩
    obtain ⟨hwf, sub, chain, i, hsub, hlegal, hclosed, hi, hw⟩ :=
      exists_legal_of_yields hbuild hg hp hyields
    exact ⟨String.toList_inj.1 hwf, p.sub, sub, chain, i, hsub, hlegal,
      hlegal.concludes hclosed hi, hw⟩
  · -- What is built so is found, as no look-up is given up.
    rintro ⟨rfl, id, sub, chain, i, hsub, hlegal, hc, hw⟩
    have hgrammar : a.grammar = d.compile.grammar := grammar_of_build hbuild
    exact exists_yields d hbuild hg hsub hlegal hc.endsClosed hc.mergeChain?_eq hw hlookups.stems
      (hgrammar ▸ hlookups.affixes)

end Analyzer

/-! ## Nothing is pruned -/

namespace Grammar

variable {g : Grammar} {limits : SearchLimits} {start h : Handle} {before chain : List InflexionId}
  {i : Inflexion}

/-- No chain from which a word is built breaks a limit on repeats or on inflexions without
characters. -/
def Unpruned (g : Grammar) (limits : SearchLimits) (host : String) : Prop :=
  ∀ id sub chain i w, g.subLexeme? id = some sub → g.Concludes [] sub.paradigm chain i →
    g.buildWordform? id i = some w → w.wf = host → g.LegalChain limits sub.paradigm chain

/-- There are no links in a paradigm and those behind it, and it takes at most `n` inflexions to
come to an end. -/
def Shallow (g : Grammar) : Nat → Handle → Prop
  | 0, _ => False
  | n + 1, h => ∀ p ∈ g.paradigm? h, ∀ i ∈ p.inflexions,
      i.isLink = false ∧ (i.continues = true → ∀ next ∈ i.subsequent, g.Shallow n next)

instance Shallow.decidable (g : Grammar) : (n : Nat) → (h : Handle) → Decidable (g.Shallow n h)
  | 0, _ => inferInstanceAs (Decidable False)
  | n + 1, h =>
    have := Shallow.decidable g n
    inferInstanceAs (Decidable (∀ p ∈ g.paradigm? h, ∀ i ∈ p.inflexions,
      i.isLink = false ∧ (i.continues = true → ∀ next ∈ i.subsequent, g.Shallow n next)))

/-- Nothing is behind a link, and what the inflexion continues in is less deep. -/
private theorem Shallow.of_leadsTo {n links : Nat} {ok : Paradigm → Prop} {id : InflexionId}
    (hshallow : g.Shallow (n + 1) h) (hid : g.LeadsTo ok links h id)
    (hi : g.inflexion? id = some i) :
    g.LeadsTo ok 0 h id ∧ (i.continues = true → ∀ next ∈ i.subsequent, g.Shallow n next) := by
  cases hid with
  | own hp hok hget hlink =>
    obtain rfl : i = _ := Option.some.inj (hi.symm.trans (inflexion?_of_paradigm? hp hget))
    exact ⟨.own hp hok hget hlink, (hshallow _ hp _ (List.mem_of_getElem? hget)).2⟩
  | link hp _ hget hlink _ _ =>
    have := (hshallow _ hp _ (List.mem_of_getElem? hget)).1
    exact absurd (this.symm.trans hlink) Bool.false_ne_true

/-- A chain that is no longer than the limits allow is a `LegalChain`. -/
private theorem Concludes.legalChain_append (hc : g.Concludes before h chain i) {n : Nat}
    (hlegal : g.LegalChain limits start before) (hopen : g.IsOpen start before h)
    (hshallow : g.Shallow n h) (hrepeats : before.length + n ≤ g.config.recursLimit)
    (hempties : before.length + n ≤ limits.maxEmptyInflexions + 1) :
    g.LegalChain limits start (before ++ chain) := by
  -- What is in front has fewer inflexions than may be repeated or be empty.
  have hfollow {before : List InflexionId} {h : Handle} {n : Nat} {id : InflexionId}
      (hid : g.LeadsTo (g.Admits before) 0 h id)
      (hrepeats : before.length + (n + 1) ≤ g.config.recursLimit)
      (hempties : before.length + (n + 1) ≤ limits.maxEmptyInflexions + 1) :
      g.MayFollow limits before h id := by
    have hcount := List.count_le_length (a := id) (l := before)
    have hdepth : g.emptyDepth before ≤ before.length :=
      List.countP_le_length.trans (List.length_filterMap_le ..)
    exact ⟨by omega, 0, by omega, hid⟩
  induction hc generalizing n with
  | last hid hi _ =>
    cases n with
    | zero => exact hshallow.elim
    | succ n => exact hlegal.concat hopen (hfollow (hshallow.of_leadsTo hid hi).1 hrepeats hempties)
  | @next before h next links id rest i child joined hid hi hnext _ hjoin ih =>
    cases n with
    | zero => exact hshallow.elim
    | succ n =>
      obtain ⟨hown, hbelow⟩ := hshallow.of_leadsTo hid hi
      have hlegal' := hlegal.concat hopen (hfollow hown hrepeats hempties)
      have hcont := (Inflexion.parts_of_join? hjoin).1
      -- The inflexion continues, and the paradigm it leads to is open behind it.
      have hopen' : g.IsOpen start (before ++ [id]) next := by
        rw [IsOpen, List.getLast?_concat]
        exact ⟨i, hi, hcont, hnext⟩
      have hlength : (before ++ [id]).length + n = before.length + (n + 1) := by
        rw [List.length_append, List.length_singleton]
        omega
      have hrest := ih hlegal' hopen' (hbelow hcont next hnext) (hlength ▸ hrepeats)
        (hlength ▸ hempties)
      simpa using hrest

/-- If no chain is longer than the limits allow, nothing is pruned in any word. -/
theorem unpruned_of_shallow {n : Nat}
    (hshallow : ∀ e ∈ g.subLexemes, g.Shallow n e.2.paradigm)
    (hrepeats : n ≤ g.config.recursLimit) (hempties : n ≤ limits.maxEmptyInflexions + 1)
    (host : String) : g.Unpruned limits host := by
  intro id sub chain i w hsub hc _ _
  have hmem := hshallow (id, sub) (mem_subLexemes_iff.2 hsub)
  have hnil : g.LegalChain limits sub.paradigm [] := .nil
  exact hc.legalChain_append hnil rfl hmem (by simpa using hrepeats) (by simpa using hempties)

end Grammar

/-- If nothing is pruned, the analyses of a word are all wordforms with its surface that the grammar
builds. -/
theorem Analyzer.mem_analyze_iff_builds {config : ParserConfig} {a : Analyzer} (d : GrammarDraft)
    (hbuild : build d.compile.grammar config = .ok a) (hg : d.compile.grammar.Suffixing)
    {host : String} (hlookups : a.LookupsComplete host.toList)
    (hunpruned : d.compile.grammar.Unpruned
      ⟨config.maxEmptyInflexions, config.minReplacementWordLen⟩ host) :
    ∃ n, ∀ budget : Budget, budget.exhausted = false → n ≤ budget.remaining → ∀ w,
      w ∈ (a.analyze host 0 budget).1 ↔ w.wf = host ∧ d.compile.grammar.Builds w := by
  obtain ⟨n, hanalyze⟩ := mem_analyze_iff_legal d hbuild hg hlookups
  refine ⟨n, fun budget hexhausted hn w => (hanalyze budget hexhausted hn w).trans ?_⟩
  constructor
  · rintro ⟨hwf, id, sub, chain, i, hsub, -, hc, hw⟩
    exact ⟨hwf, id, sub, chain, i, hsub, hc, hw⟩
  · rintro ⟨hwf, id, sub, chain, i, hsub, hc, hw⟩
    exact ⟨hwf, id, sub, chain, i, hsub, hunpruned id sub chain i w hsub hc hw hwf, hc, hw⟩

end Morphology
