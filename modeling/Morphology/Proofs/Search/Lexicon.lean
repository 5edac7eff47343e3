import Morphology.Proofs.Grammar.Lexicon
import Morphology.Proofs.Search.ExactIndices

/-!
# The search in a growing lexicon

One more lexeme changes the tries of the stems and of what may be incorporated, and the wordforms
that are generated beforehand.  It changes neither which inflexions may be tried nor what is found
of the other lexemes: a search that places and incorporates no stem of the new lexeme goes through
the same states with it and without.

## Main definitions

* `Matcher.withLexicon` — the matcher with other lexemes
* `Matcher.AwaitsStem` — the search has come to a place for a stem
* `Analyzer.LooksUp` — no look-up that an analysis makes is given up
* `Analyzer.FindsWith`, `Analyzer.GeneratesFrom` — where the analyses of a word come from
* `Analyzer.BelongsTo` — the wordforms that some sub-lexemes have part in

## Main statements

* `Matcher.Move.withLexicon` — a move is one with every lexicon that has the stems it needs
* `Matcher.Reaches.withLexicon` — so is a search that keeps to stems which the lexicons share
* `Analyzer.FindsWith.of_agreeOn`, `Analyzer.GeneratesFrom.of_agreeOn` — and what it leads to
* `Analyzer.mem_analyze_addLexeme_iff` — what one more lexeme adds to the analyses of a word
-/

namespace Morphology

/-! ## The search with other lexemes -/

namespace Matcher

variable {m : Matcher} {lexemes : Arena Lexeme}
  {incorporations : List Char → Nat → List (SubLexemeId × Nat)} {st st' : SearchState}
  {p : Placement}

/-- The matcher with other lexemes to place and to incorporate. -/
def withLexicon (m : Matcher) (lexemes : Arena Lexeme)
    (incorporations : List Char → Nat → List (SubLexemeId × Nat)) : Matcher :=
  { m with grammar := { m.grammar with lexemes := lexemes }, incorporations := incorporations }

/-- The next part of a level is a place for a stem. -/
def AwaitsStem (m : Matcher) (st : SearchState) : Prop :=
  ∃ level l i part, AtPart m st level l i part ∧ part.role = .incorporation

theorem AtPart.withLexicon {level : Nat} {l : Level} {i : Inflexion} {part : FlexPart}
    (hat : AtPart m st level l i part) :
    AtPart (m.withLexicon lexemes incorporations) st level l i part :=
  ⟨hat.current, hat.level, hat.inflexion, hat.part⟩

private theorem reachable_withLexicon (slot : Bool) (depth : Nat) (h : Handle) :
    (m.withLexicon lexemes incorporations).reachable st slot depth h =
      m.reachable st slot depth h := by
  induction depth generalizing h with
  | zero => rfl
  | succ depth ih =>
    have hlinks : (m.withLexicon lexemes incorporations).reachable st slot depth =
        m.reachable st slot depth := funext ih
    rw [reachable, hlinks]
    rfl

/-- Which inflexions follow is a matter of the paradigms. -/
theorem mayFollow_withLexicon (slot : Bool) (h : Handle) :
    (m.withLexicon lexemes incorporations).mayFollow st slot h = m.mayFollow st slot h :=
  reachable_withLexicon slot _ h

theorem stepSelf_withLexicon (h : Handle) :
    (m.withLexicon lexemes incorporations).stepSelf st h = m.stepSelf st h := by
  rw [stepSelf, mayFollow_withLexicon]
  rfl

theorem AwaitsStem.withLexicon (h : m.AwaitsStem st) :
    (m.withLexicon lexemes incorporations).AwaitsStem st := by
  obtain ⟨level, l, i, part, hat, hrole⟩ := h
  exact ⟨level, l, i, part, hat.withLexicon, hrole⟩

/-- What is a move is one with another lexicon in which the stem is the same, and in which the stem
that is incorporated, if there is one, is found as well. -/
theorem Move.withLexicon (hmove : Move m st st')
    (hsub : (m.withLexicon lexemes incorporations).grammar.subLexeme? st.placement.sub =
      m.grammar.subLexeme? st.placement.sub)
    (hinc : ∀ level l i part sub length, AtPart m st level l i part → part.role = .incorporation →
      (sub, length) ∈ m.incorporations st.placement.word st.pos →
      st' = { st.modifyLevel level (·.incorporate sub) with pos := st.pos + length } →
      (sub, length) ∈ incorporations st.placement.word st.pos) :
    Move (m.withLexicon lexemes incorporations) st st' := by
  have hstem {sub : SubLexeme} {c : Char} (hat : AtStem m st sub c) :
      AtStem (m.withLexicon lexemes incorporations) st sub c :=
    ⟨hat.current, hat.char, hsub.trans hat.sub⟩
  -- Moves read the word and the paradigms.  Only those at the stem need its sub-lexeme, and only one
  -- looks up another stem.
  cases hmove with
  | stemChar hat hc hfront hread => exact .stemChar (hstem hat) hc hfront hread
  | firstChar hat hc hfront hnone hread =>
    exact .firstChar (hstem hat) hc hfront ((stepSelf_withLexicon _).trans hnone) hread
  | openFront hat hc hfront hid hi hself =>
    exact .openFront (hstem hat) hc hfront (by rwa [mayFollow_withLexicon]) hi hself
  | passFront hat hc hfront hsome =>
    exact .passFront (hstem hat) hc hfront (by rwa [stepSelf_withLexicon])
  | openStem hat hnil hid => exact .openStem (hstem hat) hnil (by rwa [mayFollow_withLexicon])
  | enterFirst hat hne => exact .enterFirst (hstem hat) hne
  | leaveLevel hcur hl hi hend => exact .leaveLevel hcur hl hi hend
  | handOver hat hrole hover => exact .handOver hat.withLexicon hrole hover
  | passMark hat hrole => exact .passMark hat.withLexicon hrole
  | enterNext hat hrole hbelow => exact .enterNext hat.withLexicon hrole hbelow
  | openNext hat hrole hlast hh hid =>
    exact .openNext hat.withLexicon hrole hlast hh (by rwa [mayFollow_withLexicon])
  | incorporate hat hrole hsub =>
    exact .incorporate hat.withLexicon hrole (hinc _ _ _ _ _ _ hat hrole hsub rfl)
  | endPart hat hrole hend => exact .endPart hat.withLexicon hrole hend
  | readChar hat hrole hc hread => exact .readChar hat.withLexicon hrole hc hread

/-! ## What is incorporated -/

variable {ok : InflexionId → Incorporated → Prop}

theorem Incorporates.of_modifyLevel {level : Nat} {f : Level → Level}
    (h : Incorporates ok (st.modifyLevel level f))
    (hf : ∀ l, (f l).link.inflexion = l.link.inflexion ∧
      l.link.incorporated ⊆ (f l).link.incorporated) : Incorporates ok st := by
  intro l hl inc hinc
  obtain ⟨n, hn⟩ := List.getElem?_of_mem hl
  have hmem : (if level = n then f l else l) ∈ (st.modifyLevel level f).levels :=
    List.mem_of_getElem? (SearchState.getElem?_modifyLevel.2 ⟨l, hn, rfl⟩)
  obtain ⟨hsame, hsub⟩ := hf l
  split at hmem
  · have hok := h _ hmem inc (hsub hinc)
    rwa [hsame] at hok
  · exact h l hmem inc hinc

/-- Nothing that is incorporated is given up: before a `Move` there was no more of it. -/
theorem Incorporates.of_move (hmove : Move m st st') (h : Incorporates ok st') :
    Incorporates ok st := by
  -- A level that goes on had the same stems before.
  have hnext {level : Nat} (h : Incorporates ok (st.modifyLevel level (·.nextPart))) :
      Incorporates ok st :=
    h.of_modifyLevel fun _ => ⟨rfl, List.Subset.refl _⟩
  have hopen {st₁ : SearchState} {id : InflexionId} (h : Incorporates ok (m.openLevel st₁ id)) :
      Incorporates ok st₁ :=
    fun l hl => h l (List.mem_append_left _ hl)
  cases hmove with
  | stemChar _ _ _ hread =>
    obtain ⟨pos, rfl⟩ := eq_of_mem_stepStemChar hread
    exact h
  | firstChar _ _ _ _ hread =>
    obtain ⟨pos, rfl⟩ := eq_of_mem_stepStemChar hread
    exact h
  | openFront _ _ _ _ _ _ => exact hopen h
  | passFront _ _ _ _ => exact h
  | openStem _ _ _ => exact hopen h
  | enterFirst _ _ => exact h
  | leaveLevel _ _ _ _ => exact h
  | handOver _ _ _ => exact hnext h
  | passMark _ _ => exact hnext h
  | enterNext _ _ _ => exact hnext h
  | openNext _ _ _ _ _ => exact hnext (hopen h)
  | @incorporate level l i part sub length hat hrole hsub =>
    exact Incorporates.of_modifyLevel (f := (·.incorporate sub)) h
      fun _ => ⟨rfl, List.subset_append_left ..⟩
  | endPart _ _ _ => exact hnext h
  | readChar _ _ _ _ =>
    exact Incorporates.of_modifyLevel (f := fun l => { l with consumed := l.consumed + 1 }) h
      fun _ => ⟨rfl, List.Subset.refl _⟩

/-- The stem that a move incorporates is among what is incorporated. -/
theorem Incorporates.of_incorporate {level pos : Nat} {l : Level} {sub : SubLexemeId}
    (h : Incorporates ok { st.modifyLevel level (·.incorporate sub) with pos := pos })
    (hl : st.levels[level]? = some l) : ok l.link.inflexion ⟨l.part, sub⟩ := by
  have hlevel : (st.modifyLevel level (·.incorporate sub)).levels[level]? =
      some (l.incorporate sub) :=
    SearchState.getElem?_modifyLevel.2 ⟨l, hl, if_pos rfl⟩
  exact h (l.incorporate sub) (List.mem_of_getElem? hlevel) ⟨l.part, sub⟩
    (List.mem_append_right _ (List.mem_singleton_self _))

/-! ## The search with what is kept -/

variable {kept : Handle → Prop}

/-- Everything incorporated in the levels is of a lexeme that is kept. -/
def IncorporatesKept (kept : Handle → Prop) (st : SearchState) : Prop :=
  Incorporates (fun _ inc => kept inc.sub.lexeme) st

theorem Reaches.placement_eq (h : m.Reaches (.start p) st) : st.placement = p :=
  Reaches.keeps (P := fun st => st.placement = p)
    (fun _ _ h hmove => hmove.placement_eq.trans h) h rfl

/-- What the search `Reaches` with stems that are kept, it reaches with any lexicon that keeps
them. -/
theorem Reaches.withLexicon
    (hagree : m.grammar.AgreeOn kept (m.withLexicon lexemes incorporations).grammar)
    (hplaced : kept p.sub.lexeme) (hkept : IncorporatesKept kept st)
    (hinc : ∀ st sub length, m.Reaches (.start p) st →
      (m.withLexicon lexemes incorporations).Reaches (.start p) st → m.AwaitsStem st →
      kept sub.lexeme → (sub, length) ∈ m.incorporations st.placement.word st.pos →
      (sub, length) ∈ incorporations st.placement.word st.pos)
    (hreach : m.Reaches (.start p) st) :
    (m.withLexicon lexemes incorporations).Reaches (.start p) st := by
  -- Nothing that is incorporated is given up, so each earlier state keeps to the stems as well.
  induction hreach with
  | refl => exact .refl
  | @tail st st' hreach hgo ih =>
    have hmove := mem_step_iff.1 hgo.2
    have hreach' := ih (Incorporates.of_move hmove hkept)
    have hsub := hagree.subLexeme?_eq hplaced
    rw [← Reaches.placement_eq hreach] at hsub
    refine hreach'.tail ⟨hgo.1, mem_step_iff.2 (hmove.withLexicon hsub ?_)⟩
    -- What is incorporated by this step is kept, and found in the other lexicon as well.
    rintro level l i part sub length hat hrole hsub rfl
    have hok : kept sub.lexeme := Incorporates.of_incorporate hkept hat.level
    exact hinc st sub length hreach hreach' ⟨level, l, i, part, hat, hrole⟩ hok hsub

end Matcher

/-! ## Two lexicons -/

namespace Analyzer

open Matcher (IncorporatesKept)

variable {g g' : Grammar} {config : ParserConfig} {a a' : Analyzer} {kept : Handle → Prop}
  {word : List Char} {id : SubLexemeId} {chain : List ChainLink} {w : Wordform}

/-- No look-up of stems is given up: neither that of the stems in a word, nor those of the stems
that are incorporated wherever the search comes to a place for one. -/
structure LooksUp (a : Analyzer) (word : List Char) : Prop where
  stems : a.stems.completes word 0 = true
  incorporations : ∀ index, IncorporationIndex.build a.grammar = .ok index →
    ∀ p ∈ a.placements word 0, ∀ st, a.matcher.Reaches (.start p) st → a.matcher.AwaitsStem st →
      st.pos ≤ word.length → index.keys.completes (.anchored st.pos word) = true

/-- Whether no look-up of stems anywhere in a word is given up, as a test. -/
def looksUpAll (a : Analyzer) (word : List Char) : Bool :=
  a.stems.completes word 0 &&
    (IncorporationIndex.build a.grammar).toOption.all (·.completes word)

theorem looksUp_of_looksUpAll (h : a.looksUpAll word = true) : a.LooksUp word := by
  obtain ⟨hstems, hincorporations⟩ := Bool.and_eq_true_iff.1 h
  refine ⟨hstems, fun index hindex _ _ _ _ _ hpos => ?_⟩
  rw [hindex] at hincorporations
  exact IncorporationIndex.completes_anchored hincorporations hpos

/-- The matchers of grammars that differ in their lexemes only do so too. -/
theorem matcher_eq_withLexicon (hagree : g.AgreeOn kept g') (hbuild : build g config = .ok a)
    (hbuild' : build g' config = .ok a') :
    a'.matcher = a.matcher.withLexicon g'.lexemes a'.matcher.incorporations := by
  obtain ⟨-, affixes, incorporations, -, haffixes, -, -, hmatcher, -⟩ := build_eq_ok hbuild
  obtain ⟨-, affixes', incorporations', -, haffixes', -, -, hmatcher', -⟩ := build_eq_ok hbuild'
  -- The index of affixes is made from the paradigms alone.
  have hsame : AffixIndex.build g' = AffixIndex.build g := by
    rw [AffixIndex.build, hagree.paradigms_eq, AffixIndex.build]
  obtain rfl : affixes' = affixes := Except.ok.inj (haffixes'.symm.trans (hsame.trans haffixes))
  rw [hmatcher, hmatcher']
  show Matcher.ofIndices g' _ _ _ = Matcher.ofIndices { g with lexemes := g'.lexemes } _ _ _
  rw [← hagree.others]
  rfl

/-- Whether a stem that is kept is incorporated somewhere is a matter of its own form, which both
grammars have. -/
theorem mem_incorporations_of_agreeOn (hagree : g.AgreeOn kept g') (hbuild : build g config = .ok a)
    (hbuild' : build g' config = .ok a') {pos length : Nat} {sub : SubLexemeId}
    (hkept : kept sub.lexeme)
    (hcompletes : ∀ index, IncorporationIndex.build g = .ok index → pos ≤ word.length →
      index.keys.completes (.anchored pos word) = true)
    (hcompletes' : ∀ index, IncorporationIndex.build g' = .ok index → pos ≤ word.length →
      index.keys.completes (.anchored pos word) = true)
    (h : (sub, length) ∈ a.matcher.incorporations word pos) :
    (sub, length) ∈ a'.matcher.incorporations word pos := by
  obtain ⟨-, affixes, index, -, -, hindex, -, hmatcher, -⟩ := build_eq_ok hbuild
  obtain ⟨-, affixes', index', -, -, hindex', -, hmatcher', -⟩ := build_eq_ok hbuild'
  have hpos : pos ≤ word.length := Nat.le_of_add_right_le (incorporated_of_build hbuild h).2
  rw [hmatcher] at h
  rw [hmatcher']
  obtain ⟨lexeme, key, hsub, hkey, hat⟩ :=
    (IncorporationIndex.mem_at?_iff hindex hpos (hcompletes index hindex hpos)).1 h
  refine (IncorporationIndex.mem_at?_iff hindex' hpos (hcompletes' index' hindex' hpos)).2 ?_
  exact ⟨lexeme, key, (hagree.subLexeme?_eq hkept).trans hsub, hkey, hat⟩

/-- So is whether it is placed. -/
theorem mem_placements_of_agreeOn (hagree : g.AgreeOn kept g') (hbuild : build g config = .ok a)
    (hbuild' : build g' config = .ok a') (hlookups : a.LooksUp word) (hlookups' : a'.LooksUp word)
    {p : Placement} (hplaced : kept p.sub.lexeme) (hp : p ∈ a.placements word 0) :
    p ∈ a'.placements word 0 := by
  obtain ⟨sub, key, hsub, hrest⟩ := (mem_placements_iff hbuild hlookups.stems).1 hp
  exact (mem_placements_iff hbuild' hlookups'.stems).2
    ⟨sub, key, (hagree.subLexeme?_eq hplaced).trans hsub, hrest⟩

/-- With a stem that is kept, and nothing incorporated but what is kept, the search `Reaches` the
same states. -/
theorem reaches_of_agreeOn (hagree : g.AgreeOn kept g') (hbuild : build g config = .ok a)
    (hbuild' : build g' config = .ok a') (hlookups : a.LooksUp word) (hlookups' : a'.LooksUp word)
    {p : Placement} {st : SearchState} (hplaced : kept p.sub.lexeme) (hp : p ∈ a.placements word 0)
    (hkept : IncorporatesKept kept st) (hreach : a.matcher.Reaches (.start p) st) :
    a'.matcher.Reaches (.start p) st := by
  have hgrammar : a.grammar = g := grammar_of_build hbuild
  have hgrammar' : a'.grammar = g' := grammar_of_build hbuild'
  have hmatcher := matcher_eq_withLexicon hagree hbuild hbuild'
  have hp' := mem_placements_of_agreeOn hagree hbuild hbuild' hlookups hlookups' hplaced hp
  have hsame : a.matcher.grammar.AgreeOn kept
      (a.matcher.withLexicon g'.lexemes a'.matcher.incorporations).grammar := by
    rw [← hmatcher, grammar_of_build hbuild, grammar_of_build hbuild']
    exact hagree
  rw [hmatcher]
  refine Matcher.Reaches.withLexicon hsame hplaced hkept ?_ hreach
  -- Both searches come to the place for the stem, so that both look it up.
  intro st sub length hreach hreach' hawaits hkept hmem
  have hword : st.placement.word = word := by
    obtain ⟨sub, key, -, -, -, hplace⟩ := key_of_mem_placements hbuild hp
    rw [hreach.placement_eq, hplace]
  rw [hword] at hmem ⊢
  rw [← hmatcher] at hreach'
  apply mem_incorporations_of_agreeOn hagree hbuild hbuild' hkept ?_ ?_ hmem
  · intro index hindex hpos
    exact hlookups.incorporations index (hgrammar ▸ hindex) p hp st hreach hawaits hpos
  · intro index hindex hpos
    have hawaits' : a'.matcher.AwaitsStem st := hmatcher ▸ hawaits.withLexicon
    exact hlookups'.incorporations index (hgrammar' ▸ hindex) p hp' st hreach' hawaits' hpos

/-! ## Wordforms that are found -/

/-- A wordform is found of a sub-lexeme with a chain. -/
structure FindsWith (a : Analyzer) (host : String) (id : SubLexemeId) (chain : List ChainLink)
    (w : Wordform) : Prop where
  /-- From a placement of the sub-lexeme the search comes to its end with the chain. -/
  matched : ∃ p ∈ a.placements host.toList 0, ∃ st, p.sub = id ∧ st.levels.map (·.link) = chain ∧
    a.matcher.Reaches (.start p) st ∧ a.matcher.canContinue st = false ∧
      a.matcher.isComplete st = true
  /-- The sub-lexeme has the wordform with the inflexion that the chain merges into. -/
  formed : ∃ i, a.grammar.mergeChain? chain = some i ∧ a.grammar.buildWordform? id i = some w
  surface : w.wf = host

/-- What the placements of stems lead to is found of the stems. -/
theorem exists_yields_iff_findsWith {host : String} :
    (∃ p ∈ a.placements host.toList 0, a.matcher.Yields host.toList 0 (.start p) w) ↔
      ∃ id chain, a.FindsWith host id chain w := by
  constructor
  · rintro ⟨p, hp, st, hreach, hend, hacc⟩
    obtain ⟨hcomplete, hanswers, hformed⟩ := Matcher.of_accept?_eq_some hacc
    rw [hreach.placement_eq] at hformed
    refine ⟨p.sub, st.levels.map Level.link, ⟨p, hp, st, rfl, rfl, hreach, hend, hcomplete⟩,
      hformed, ?_⟩
    simpa [Matcher.answers, String.toList_inj] using hanswers
  · rintro ⟨id, chain, ⟨p, hp, st, rfl, rfl, hreach, hend, hcomplete⟩, ⟨i, hi, hw⟩, rfl⟩
    refine ⟨p, hp, st, hreach, hend, ?_⟩
    rw [grammar, ← hreach.placement_eq] at hw
    rw [grammar] at hi
    simp [Matcher.accept?, hcomplete, hi, hw, Matcher.answers]

/-- What is found of a stem that is kept, with nothing incorporated but what is kept, is found with
every lexicon that keeps them: `FindsWith` for both grammars. -/
theorem FindsWith.of_agreeOn {host : String} (hagree : g.AgreeOn kept g')
    (hbuild : build g config = .ok a) (hbuild' : build g' config = .ok a')
    (hlookups : a.LooksUp host.toList) (hlookups' : a'.LooksUp host.toList)
    (hid : kept id.lexeme)
    (hchain : ∀ link ∈ chain, ∀ inc ∈ link.incorporated, kept inc.sub.lexeme)
    (h : a.FindsWith host id chain w) : a'.FindsWith host id chain w where
  matched := by
    obtain ⟨p, hp, st, rfl, rfl, hreach, hend, hcomplete⟩ := h.matched
    have hkept : IncorporatesKept kept st :=
      fun l hl inc hinc => hchain l.link (List.mem_map_of_mem hl) inc hinc
    have hp' := mem_placements_of_agreeOn hagree hbuild hbuild' hlookups hlookups' hid hp
    have hreach' :=
      reaches_of_agreeOn hagree hbuild hbuild' hlookups hlookups' hid hp hkept hreach
    -- Whether the search is at its end is a matter of the state and of its inflexions.
    rw [matcher_eq_withLexicon hagree hbuild hbuild'] at hreach' ⊢
    exact ⟨p, hp', st, rfl, rfl, hreach', hend, hcomplete⟩
  formed := by
    obtain ⟨i, hi, hw⟩ := h.formed
    rw [grammar, grammar_of_build hbuild] at hi hw
    rw [grammar, grammar_of_build hbuild']
    exact ⟨i, (hagree.mergeChain?_eq hchain).trans hi, (hagree.buildWordform?_eq hid i).trans hw⟩
  surface := h.surface

/-- What is found is of stems that the grammar has. -/
theorem FindsWith.exists_subLexeme? {host : String} (hbuild : build g config = .ok a)
    (h : a.FindsWith host id chain w) : (∃ sub, g.subLexeme? id = some sub) ∧
      ∀ link ∈ chain, ∀ inc ∈ link.incorporated, ∃ sub, g.subLexeme? inc.sub = some sub := by
  obtain ⟨⟨p, hp, st, rfl, rfl, hreach, -⟩, -⟩ := h
  constructor
  · obtain ⟨sub, key, hsub, -⟩ := key_of_mem_placements hbuild hp
    exact ⟨sub, hsub⟩
  · -- Whatever is incorporated was found in the index, and so is in the grammar.
    have hincorporates : Matcher.Incorporates (fun _ inc => ∃ sub, g.subLexeme? inc.sub = some sub)
        st := by
      refine Matcher.Reaches.keeps (fun _ _ h hmove => h.move ?_ hmove) hreach ?_
      · intro word pos sub length _ _ _ _ hsub _ _ _
        obtain ⟨lexeme, hlexeme, -⟩ := (incorporated_of_build hbuild hsub).1
        exact ⟨lexeme, hlexeme⟩
      · intro l hl
        exact absurd hl List.not_mem_nil
    intro link hlink inc hinc
    obtain ⟨l, hl, rfl⟩ := List.mem_map.1 hlink
    exact hincorporates l hl inc hinc

/-! ## Wordforms that are generated -/

/-- A wordform is generated of a sub-lexeme without literal characters. -/
structure GeneratesFrom (a : Analyzer) (host : String) (id : SubLexemeId) (w : Wordform) : Prop where
  keyless : id ∈ a.stems.keyless
  formed : w ∈ a.grammar.generateWordforms id
  surface : w.wf = host

theorem mem_generated_iff {host : String} (hbuild : build g config = .ok a) :
    w ∈ a.generated host ↔ ∃ id, a.GeneratesFrom host id w := by
  obtain ⟨stems, -, -, -, -, -, rfl, -, hpregenerated⟩ := build_eq_ok hbuild
  have hgrammar : a.grammar = g := grammar_of_build hbuild
  rw [generated, hpregenerated, List.mem_filter, List.mem_flatMap]
  constructor
  · rintro ⟨⟨id, hid, hw⟩, hwf⟩
    exact ⟨id, hid, hgrammar ▸ hw, by simpa using hwf⟩
  · rintro ⟨id, hid, hw, hwf⟩
    exact ⟨⟨id, hid, hgrammar ▸ hw⟩, by simpa using hwf⟩

theorem GeneratesFrom.exists_subLexeme? {host : String} (hbuild : build g config = .ok a)
    (h : a.GeneratesFrom host id w) : ∃ sub, g.subLexeme? id = some sub := by
  obtain ⟨stems, -, -, hstems, -, -, rfl, -⟩ := build_eq_ok hbuild
  obtain ⟨sub, hsub, -⟩ := (StemIndex.mem_keyless_iff hstems).1 h.keyless
  exact ⟨sub, hsub⟩

theorem GeneratesFrom.of_agreeOn {host : String} (hagree : g.AgreeOn kept g')
    (hbuild : build g config = .ok a) (hbuild' : build g' config = .ok a') (hid : kept id.lexeme)
    (h : a.GeneratesFrom host id w) : a'.GeneratesFrom host id w where
  keyless := by
    obtain ⟨stems, -, -, hstems, -, -, rfl, -⟩ := build_eq_ok hbuild
    obtain ⟨stems', -, -, hstems', -, -, rfl, -⟩ := build_eq_ok hbuild'
    obtain ⟨sub, hsub, hnone⟩ := (StemIndex.mem_keyless_iff hstems).1 h.keyless
    exact (StemIndex.mem_keyless_iff hstems').2
      ⟨sub, (hagree.subLexeme?_eq hid).trans hsub, hnone⟩
  formed := by
    have hformed := h.formed
    rw [grammar, grammar_of_build hbuild] at hformed
    rwa [grammar, grammar_of_build hbuild', hagree.generateWordforms_eq hid]
  surface := h.surface

/-! ## Analyses -/

/-- With enough steps, the analyses without edits are what is found and what is generated. -/
theorem exists_mem_analyze_iff (hbuild : build g config = .ok a) (host : String) :
    ∃ n, ∀ budget : Budget, budget.exhausted = false → n ≤ budget.remaining → ∀ w,
      w ∈ (a.analyze host 0 budget).1 ↔
        (∃ id chain, a.FindsWith host id chain w) ∨ ∃ id, a.GeneratesFrom host id w := by
  obtain ⟨n, hpass⟩ := exists_pass a host.toList 0
  refine ⟨n, fun budget hfresh hn w => ?_⟩
  rw [analyze_zero, List.mem_append, hpass budget hfresh hn w, exists_yields_iff_findsWith,
    mem_generated_iff hbuild]

/-- A wordform belongs to some sub-lexemes: it is found of one of them or with one of them
incorporated, or it is generated of one of them. -/
def BelongsTo (a : Analyzer) (host : String) (subs : List SubLexemeId) (w : Wordform) : Prop :=
  (∃ id chain, a.FindsWith host id chain w ∧
    (id ∈ subs ∨ ∃ link ∈ chain, ∃ inc ∈ link.incorporated, inc.sub ∈ subs)) ∨
  ∃ id ∈ subs, a.GeneratesFrom host id w

section AddLexeme

variable {e : LexemeEntry} {host : String}

/-- What is found without a lexeme is found with it. -/
theorem FindsWith.addLexeme (hbuild : build g config = .ok a)
    (hbuild' : build (g.addLexeme e) config = .ok a') (hlookups : a.LooksUp host.toList)
    (hlookups' : a'.LooksUp host.toList) (h : a.FindsWith host id chain w) :
    a'.FindsWith host id chain w := by
  obtain ⟨⟨sub, hsub⟩, hincs⟩ := h.exists_subLexeme? hbuild
  apply h.of_agreeOn (g.agreeOn_addLexeme e) hbuild hbuild' hlookups hlookups'
  · exact Grammar.ne_nextHandle_of_subLexeme? hsub
  · intro link hlink inc hinc
    obtain ⟨sub, hsub⟩ := hincs link hlink inc hinc
    exact Grammar.ne_nextHandle_of_subLexeme? hsub

/-- What is found with a lexeme is found without it, unless one of its sub-lexemes is placed or
incorporated. -/
theorem FindsWith.of_addLexeme (hbuild : build g config = .ok a)
    (hbuild' : build (g.addLexeme e) config = .ok a') (hlookups : a.LooksUp host.toList)
    (hlookups' : a'.LooksUp host.toList) (h : a'.FindsWith host id chain w) :
    a.FindsWith host id chain w ∨ id ∈ g.subLexemesOf e ∨
      ∃ link ∈ chain, ∃ inc ∈ link.incorporated, inc.sub ∈ g.subLexemesOf e := by
  obtain ⟨hsub, hincs⟩ := h.exists_subLexeme? hbuild'
  -- The sub-lexemes of the new lexeme are those under the next handle.
  by_cases hid : id.lexeme = g.lexemes.nextHandle
  · exact .inr (.inl (Grammar.mem_subLexemesOf_iff.2 ⟨hid, hsub⟩))
  by_cases hchain : ∀ link ∈ chain, ∀ inc ∈ link.incorporated,
      inc.sub.lexeme ≠ g.lexemes.nextHandle
  · exact .inl (h.of_agreeOn (g.agreeOn_addLexeme e).symm hbuild' hbuild hlookups' hlookups hid
      hchain)
  · simp only [not_forall, not_not] at hchain
    obtain ⟨link, hlink, inc, hinc, heq⟩ := hchain
    have hmem := Grammar.mem_subLexemesOf_iff.2 ⟨heq, hincs link hlink inc hinc⟩
    exact .inr (.inr ⟨link, hlink, inc, hinc, hmem⟩)

/-- What is generated without a lexeme is generated with it. -/
theorem GeneratesFrom.addLexeme (hbuild : build g config = .ok a)
    (hbuild' : build (g.addLexeme e) config = .ok a') (h : a.GeneratesFrom host id w) :
    a'.GeneratesFrom host id w := by
  obtain ⟨sub, hsub⟩ := h.exists_subLexeme? hbuild
  exact h.of_agreeOn (g.agreeOn_addLexeme e) hbuild hbuild'
    (Grammar.ne_nextHandle_of_subLexeme? hsub)

/-- What is generated with a lexeme is generated without it, unless of one of its sub-lexemes. -/
theorem GeneratesFrom.of_addLexeme (hbuild : build g config = .ok a)
    (hbuild' : build (g.addLexeme e) config = .ok a') (h : a'.GeneratesFrom host id w) :
    a.GeneratesFrom host id w ∨ id ∈ g.subLexemesOf e := by
  by_cases hid : id.lexeme = g.lexemes.nextHandle
  · exact .inr (Grammar.mem_subLexemesOf_iff.2 ⟨hid, h.exists_subLexeme? hbuild'⟩)
  · exact .inl (h.of_agreeOn (g.agreeOn_addLexeme e).symm hbuild' hbuild hid)

/-- **One more lexeme.**  With one more lexeme in a document, a word keeps all its analyses without
edits, and has besides them those that `BelongsTo` the sub-lexemes of the lexeme, and no others. -/
theorem mem_analyze_addLexeme_iff {limits : GrammarConfig} {doc : GrammarDocument}
    (hbuild : build (Grammar.ofDocument limits doc).grammar config = .ok a)
    (hbuild' : build (Grammar.ofDocument limits (doc.addLexeme e)).grammar config = .ok a')
    (hlookups : a.LooksUp host.toList) (hlookups' : a'.LooksUp host.toList) :
    ∃ n, ∀ budget budget' : Budget, budget.exhausted = false → budget'.exhausted = false →
      n ≤ budget.remaining → n ≤ budget'.remaining → ∀ w,
        w ∈ (a'.analyze host 0 budget').1 ↔ w ∈ (a.analyze host 0 budget).1 ∨
          a'.BelongsTo host ((Grammar.ofDocument limits doc).grammar.subLexemesOf e) w := by
  obtain ⟨n, hn⟩ := exists_mem_analyze_iff hbuild host
  obtain ⟨n', hn'⟩ := exists_mem_analyze_iff hbuild' host
  -- Steps that are enough for both searches.
  refine ⟨max n n', fun budget budget' hfresh hfresh' hle hle' w => ?_⟩
  rw [hn budget hfresh (by omega), hn' budget' hfresh' (by omega)]
  rw [Grammar.ofDocument_addLexeme] at hbuild'
  constructor
  · -- What is found with the lexeme is found without it, or belongs to it.
    rintro (⟨id, chain, hfinds⟩ | ⟨id, hgenerates⟩)
    · rcases hfinds.of_addLexeme hbuild hbuild' hlookups hlookups' with hfinds' | hsubs
      · exact .inl (.inl ⟨id, chain, hfinds'⟩)
      · exact .inr (.inl ⟨id, chain, hfinds, hsubs⟩)
    · rcases hgenerates.of_addLexeme hbuild hbuild' with hgenerates' | hsubs
      · exact .inl (.inr ⟨id, hgenerates'⟩)
      · exact .inr (.inr ⟨id, hsubs, hgenerates⟩)
  · -- What is found without it is found still.
    rintro ((⟨id, chain, hfinds⟩ | ⟨id, hgenerates⟩) | ⟨id, chain, hfinds, -⟩ | ⟨id, -, hgenerates⟩)
    · exact .inl ⟨id, chain, hfinds.addLexeme hbuild hbuild' hlookups hlookups'⟩
    · exact .inr ⟨id, hgenerates.addLexeme hbuild hbuild'⟩
    · exact .inl ⟨id, chain, hfinds⟩
    · exact .inr ⟨id, hgenerates⟩

end AddLexeme

/-! ## An example -/

/-- Nouns that may have another stem behind their own. -/
def sampleCompounds : GrammarDocument :=
  { GrammarDocument.empty with
    paradigms := [⟨"Noun", [.ofFlex "." "sg" "" [], .ofFlex ".<+>" "sg" "" []], []⟩]
    lexemes := [⟨"cat", "cat.", ["Noun"], "N", "cat", [], none, false, none⟩] }

/-- A further noun. -/
def sampleFish : LexemeEntry :=
  ⟨"fish", "fish.", ["Noun"], "N", "fish", [], none, false, none⟩

/-- With the further noun there is one more compound. -/
theorem mem_analyze_addLexeme_iff_sampleCompounds :
    ∃ a a', build (Grammar.ofDocument default sampleCompounds).grammar default = .ok a ∧
      build (Grammar.ofDocument default (sampleCompounds.addLexeme sampleFish)).grammar default =
        .ok a' ∧
      a.analyze "catfish" 0 (.fresh 1000) = ([], ⟨991, false⟩) ∧
      (a'.analyze "catfish" 0 (.fresh 1000)).1.map (·.glossed) = ["cat-fish"] ∧
      ∃ n, ∀ budget budget' : Budget, budget.exhausted = false → budget'.exhausted = false →
        n ≤ budget.remaining → n ≤ budget'.remaining → ∀ w,
          w ∈ (a'.analyze "catfish" 0 budget').1 ↔ w ∈ (a.analyze "catfish" 0 budget).1 ∨
            a'.BelongsTo "catfish"
              ((Grammar.ofDocument default sampleCompounds).grammar.subLexemesOf sampleFish) w := by
  have hplain : ((build (Grammar.ofDocument default sampleCompounds).grammar default).toOption.any
      fun a => a.looksUpAll "catfish".toList &&
        a.analyze "catfish" 0 (.fresh 1000) == ([], ⟨991, false⟩)) = true := by
    decide +kernel
  have hgrown : ((build (Grammar.ofDocument default
      (sampleCompounds.addLexeme sampleFish)).grammar default).toOption.any fun a =>
        a.looksUpAll "catfish".toList &&
          (a.analyze "catfish" 0 (.fresh 1000)).1.map (·.glossed) == ["cat-fish"]) = true := by
    decide +kernel
  obtain ⟨a, hbuild, htests⟩ := exists_eq_ok_of_any hplain
  obtain ⟨a', hbuild', htests'⟩ := exists_eq_ok_of_any hgrown
  obtain ⟨hlookups, hnone⟩ := Bool.and_eq_true_iff.1 htests
  obtain ⟨hlookups', hsome⟩ := Bool.and_eq_true_iff.1 htests'
  exact ⟨a, a', hbuild, hbuild', beq_iff_eq.1 hnone, beq_iff_eq.1 hsome,
    mem_analyze_addLexeme_iff hbuild hbuild' (looksUp_of_looksUpAll hlookups)
      (looksUp_of_looksUpAll hlookups')⟩

end Analyzer

end Morphology
