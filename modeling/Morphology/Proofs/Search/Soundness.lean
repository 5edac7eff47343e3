import Morphology.Grammar.Draft
import Morphology.Proofs.Search.Indices
import Morphology.Proofs.Search.Levels

/-!
# Soundness of the search

A wordform that the search accepts is one that the grammar builds: from the stem that is placed and
a chain of inflexions that keeps to all limits.

## Main definitions

* `Matcher.Sound` — the invariant of the search

## Main statements

* `Matcher.Sound.move` — every move keeps the invariant
* `Matcher.exists_licensed_of_reaches` — the levels of every state reached keep to all limits
* `Analyzer.exists_licensed_of_mem_run` — what the search accepts, the grammar builds
-/

namespace Morphology

namespace Matcher

variable {m : Matcher} {st st' : SearchState}

/-! ## Incorporated stems -/

/-- Everything incorporated in the levels satisfies `ok`. -/
def Incorporates (ok : InflexionId → Incorporated → Prop) (st : SearchState) : Prop :=
  ∀ l ∈ st.levels, ∀ inc ∈ l.link.incorporated, ok l.link.inflexion inc

variable {ok : InflexionId → Incorporated → Prop}

theorem Incorporates.modifyLevel (h : Incorporates ok st) (level : Nat) {f : Level → Level}
    (hsame : ∀ l, (f l).link.inflexion = l.link.inflexion)
    (hf : ∀ l, st.levels[level]? = some l → ∀ inc ∈ (f l).link.incorporated,
      inc ∈ l.link.incorporated ∨ ok l.link.inflexion inc) :
    Incorporates ok (st.modifyLevel level f) := by
  intro l hl inc hinc
  obtain ⟨n, hn⟩ := List.getElem?_of_mem hl
  obtain ⟨l₀, hl₀, rfl⟩ := SearchState.getElem?_modifyLevel.1 hn
  have hmem := List.mem_of_getElem? hl₀
  split at hinc
  · -- The level that is changed.
    rename_i heq
    rw [if_pos heq, hsame]
    rcases hf l₀ (heq ▸ hl₀) inc hinc with hold | hok
    · exact h l₀ hmem inc hold
    · exact hok
  · -- Another level.
    rename_i hne
    rw [if_neg hne]
    exact h l₀ hmem inc hinc

theorem Incorporates.openLevel (h : Incorporates ok st) (id : InflexionId) :
    Incorporates ok (m.openLevel st id) := by
  intro l hl inc hinc
  rcases List.mem_append.1 hl with hl | hl
  · exact h l hl inc hinc
  · obtain rfl := List.mem_singleton.1 hl
    exact absurd hinc List.not_mem_nil

/-- Only stems that the matcher finds are incorporated, and only in places for them: a `Move` keeps
`Incorporates`. -/
theorem Incorporates.move (hok : ∀ word pos sub length id n i part,
      (sub, length) ∈ m.incorporations word pos → m.grammar.inflexion? id = some i →
      i.parts[n]? = some part → part.role = .incorporation → ok id ⟨n, sub⟩)
    (h : Incorporates ok st) (hmove : Move m st st') : Incorporates ok st' := by
  -- Of the moves, only an incorporation adds to what a level has incorporated.
  have hnext (level : Nat) : Incorporates ok (st.modifyLevel level (·.nextPart)) :=
    h.modifyLevel level (fun _ => rfl) fun _ _ _ hinc => .inl hinc
  cases hmove with
  | stemChar _ _ _ hread =>
    obtain ⟨pos, rfl⟩ := eq_of_mem_stepStemChar hread
    exact h
  | firstChar _ _ _ _ hread =>
    obtain ⟨pos, rfl⟩ := eq_of_mem_stepStemChar hread
    exact h
  | openFront _ _ _ _ _ _ =>
    have hmark : Incorporates ok st.markTried := h
    exact hmark.openLevel _
  | passFront _ _ _ _ => exact h
  | openStem _ _ _ =>
    have hpast : Incorporates ok { st with stemPos := st.stemPos + 1 } := h
    exact hpast.openLevel _
  | enterFirst _ _ => exact h
  | leaveLevel _ _ _ _ => exact h
  | handOver _ _ _ => exact hnext _
  | passMark _ _ => exact hnext _
  | enterNext _ _ _ => exact hnext _
  | openNext _ _ _ _ _ => exact (hnext _).openLevel _
  | @incorporate level l i part sub length hat hrole hsub =>
    -- What was incorporated before stays; what is incorporated now is in a place for it.
    refine h.modifyLevel level (fun _ => rfl) fun l' hl' inc hinc => ?_
    obtain rfl : l' = l := Option.some.inj (hl'.symm.trans hat.level)
    rcases List.mem_append.1 hinc with hinc | hinc
    · exact .inl hinc
    · obtain rfl := List.mem_singleton.1 hinc
      exact .inr (hok _ _ _ _ _ _ _ _ hsub hat.inflexion hat.part hrole)
  | endPart _ _ _ => exact hnext _
  | readChar _ _ _ _ => exact h.modifyLevel _ (fun _ => rfl) fun _ _ _ hinc => .inl hinc

/-! ## The invariant -/

/-- What every state has that the search comes to from a placement: its chain is legal, and what is
incorporated may be. -/
structure Sound (m : Matcher) (p : Placement) (st : SearchState) : Prop where
  placement : st.placement = p
  legal : ∀ sub, m.grammar.subLexeme? p.sub = some sub →
    m.grammar.LegalChain m.limits sub.paradigm st.chain
  derivations : st.derivations = m.grammar.derivationsOf st.chain
  incorporates : Incorporates m.grammar.MayIncorporate st

theorem Sound.start (m : Matcher) (p : Placement) : Sound m p (.start p) where
  placement := rfl
  legal := fun _ _ => Grammar.LegalChain.nil
  derivations := rfl
  incorporates := by
    intro l hl
    exact absurd hl List.not_mem_nil

/-- Every `Move` keeps the invariant `Sound`. -/
theorem Sound.move {p : Placement} (hown : m.CandidatesOwned)
    (hinc : ∀ word pos sub length, (sub, length) ∈ m.incorporations word pos →
      m.grammar.MayBeIncorporated sub)
    (h : Sound m p st) (hmove : Move m st st') : Sound m p st' := by
  have hincorporates := h.incorporates.move
    (fun _ _ _ _ _ _ i part hsub hi hpart hrole => ⟨hinc _ _ _ _ hsub, i, part, hi, hpart, hrole⟩)
    hmove
  -- A move keeps the chain, or opens a level with an inflexion that may follow.
  rcases hmove.sameChain_or_opens with hsame | ⟨st₁, slot, h', id, hsame, -, hopen, hid, rfl⟩
  · exact {
      placement := hsame.placement.trans h.placement
      legal := hsame.chain ▸ h.legal
      derivations := by rw [hsame.derivations, hsame.chain, h.derivations]
      incorporates := hincorporates }
  · have hder : st₁.derivations = m.grammar.derivationsOf st₁.chain := by
      rw [hsame.derivations, hsame.chain, h.derivations]
    exact {
      placement := hsame.placement.trans h.placement
      legal := by
        intro sub hsub
        have hfollow := mayFollow_of_mem hown hder hid
        rw [hsame.chain] at hfollow
        rw [openLevel_chain, hsame.chain]
        exact (h.legal sub hsub).concat (hopen sub (h.placement ▸ hsub)) hfollow
      derivations := openLevel_derivations hder id
      incorporates := hincorporates }

/-! ### States reached -/

variable {start : Placement}

/-- Every state that a search comes to has the invariant. -/
theorem Sound.of_reaches (hown : m.CandidatesOwned)
    (hinc : ∀ word pos sub length, (sub, length) ∈ m.incorporations word pos →
      m.grammar.MayBeIncorporated sub)
    (hreach : m.Reaches (.start start) st) : Sound m start st :=
  hreach.keeps (fun _ _ h hmove => h.move hown hinc hmove) (.start m start)

/-- Without a stem there is no search. -/
theorem chain_eq_nil_of_reaches (hnone : m.grammar.subLexeme? start.sub = none)
    (hreach : m.Reaches (.start start) st) : st.chain = [] := by
  have hstep : m.step (.start start) = [] := by
    simp [step, SearchState.start, stepStem, hnone]
  rcases Relation.ReflTransGen.cases_head hreach with rfl | ⟨st', hgo, -⟩
  · rfl
  · rw [Goes, hstep] at hgo
    exact absurd hgo.2 List.not_mem_nil

/-- The levels of a state, if there are any, keep to all limits. -/
theorem exists_licensed_of_reaches (hown : m.CandidatesOwned)
    (hinc : ∀ word pos sub length, (sub, length) ∈ m.incorporations word pos →
      m.grammar.MayBeIncorporated sub)
    (hreach : m.Reaches (.start start) st) (hne : st.chain ≠ []) :
    ∃ sub, m.grammar.subLexeme? start.sub = some sub ∧
      m.grammar.Licensed m.limits sub.paradigm st.chain := by
  obtain ⟨sub, hsub⟩ := Option.ne_none_iff_exists'.1
    fun hnone => hne (chain_eq_nil_of_reaches hnone hreach)
  exact ⟨sub, hsub, ((Sound.of_reaches hown hinc hreach).legal sub hsub).licensed hne⟩

/-! ## Acceptance -/

variable {host : List Char} {maxEdits : Nat} {w : Wordform}

/-- What is accepted is built from the levels. -/
theorem of_accept?_eq_some (h : m.accept? host maxEdits st = some w) :
    m.isComplete st = true ∧ m.answers host maxEdits w.wf.toList = true ∧
      ∃ i, m.grammar.mergeChain? (st.levels.map (·.link)) = some i ∧
        m.grammar.buildWordform? st.placement.sub i = some w := by
  unfold accept? at h
  split at h
  · rename_i hcomplete
    simp only [Option.bind_eq_bind, Option.bind_eq_some_iff] at h
    obtain ⟨i, hi, w', hw', hanswers⟩ := h
    split at hanswers
    · rename_i hans
      obtain rfl : w' = w := Option.some.inj hanswers
      exact ⟨hcomplete, hans, i, hi, hw'⟩
    · exact absurd hanswers (by simp)
  · exact absurd h (by simp)

end Matcher

theorem Grammar.subLexeme?_of_buildWordform? {g : Grammar} {id : SubLexemeId} {i : Inflexion}
    {w : Wordform} (h : g.buildWordform? id i = some w) :
    ∃ sub, g.subLexeme? id = some sub := by
  simp only [buildWordform?, Option.bind_eq_bind, Option.bind_eq_some_iff] at h
  obtain ⟨lexeme, hlexeme, sub, hsub, -⟩ := h
  exact ⟨sub, by simp [subLexeme?, hlexeme, hsub]⟩

namespace Analyzer

/-- **What the search accepts, the grammar builds.**  A wordform that `run` returns is what
`buildWordform?` makes of the sub-lexeme that is placed and of the merge of a chain of inflexions
that is `Licensed`, in which every stem incorporated is one that `MayIncorporate` allows. -/
theorem exists_licensed_of_mem_run {g : Grammar} {config : ParserConfig} {a : Analyzer}
    (hbuild : build g config = .ok a) {host : List Char} {maxEdits : Nat} {p : Placement}
    {budget : Budget} {w : Wordform} (hw : w ∈ (a.matcher.run host maxEdits p budget).1) :
    ∃ sub chain i, g.subLexeme? p.sub = some sub ∧
      g.Licensed ⟨config.maxEmptyInflexions, config.minReplacementWordLen⟩ sub.paradigm
        (chain.map (·.inflexion)) ∧
      (∀ link ∈ chain, ∀ inc ∈ link.incorporated, g.MayIncorporate link.inflexion inc) ∧
      g.mergeChain? chain = some i ∧ g.buildWordform? p.sub i = some w := by
  have hgrammar := grammar_of_build hbuild
  have hown := candidatesOwned_of_build hbuild
  have hinc : ∀ word pos sub length, (sub, length) ∈ a.matcher.incorporations word pos →
      a.matcher.grammar.MayBeIncorporated sub := by
    intro word pos sub length hsub
    rw [hgrammar]
    exact (incorporated_of_build hbuild hsub).1
  -- The state that is accepted comes from the start by moves, each of which keeps the invariant.
  obtain ⟨last, hreach, -, hacc⟩ := Matcher.yields_of_mem_run hw
  have hsound : a.matcher.Sound p last :=
    hreach.keeps (fun _ _ h hmove => h.move hown hinc hmove) (.start a.matcher p)
  obtain ⟨hcomplete, -, i, hi, hbuilt⟩ := Matcher.of_accept?_eq_some hacc
  rw [hgrammar, hsound.placement] at hbuilt
  rw [hgrammar] at hi
  obtain ⟨sub, hsub⟩ := Grammar.subLexeme?_of_buildWordform? hbuilt
  -- Nothing is built without inflexions.
  have hne : last.chain ≠ [] := by
    intro hnil
    have hlevels : last.levels = [] := by simpa [SearchState.chain] using hnil
    simp [hlevels, Grammar.mergeChain?] at hi
  have hlegal := hsound.legal sub (by rw [hgrammar, hsub])
  rw [hgrammar, show a.matcher.limits = _ from limits_of_build hbuild] at hlegal
  refine ⟨sub, last.levels.map (·.link), i, hsub, ?_, ?_, hi, hbuilt⟩
  · -- A chain that may be continued and is complete is licensed.
    rw [List.map_map]
    exact hlegal.licensed hne
  · intro link hlink inc hmem
    obtain ⟨l, hl, rfl⟩ := List.mem_map.1 hlink
    have := hsound.incorporates l hl inc hmem
    rwa [hgrammar] at this

end Analyzer

/-! ## An example -/

/-- An inflexion of which only the flex, the tags and the continuation are given. -/
def InflexionEntry.ofFlex (flex gramm gloss : String) (paradigms : List String) : InflexionEntry :=
  ⟨flex, gramm, gloss, none, [], none, .both, paradigms, false, true⟩

/-- Nouns whose plural may be followed by a case. -/
def sampleNouns : GrammarDocument :=
  { GrammarDocument.empty with
    paradigms := [
      ⟨"Noun", [.ofFlex "." "sg" "" [], .ofFlex ".s<.>" "pl" "PL" ["Case"]], []⟩,
      ⟨"Case", [.ofFlex "." "nom" "" [], .ofFlex ".m" "acc" "ACC" []], []⟩]
    lexemes := [⟨"cat", "cat.", ["Noun"], "N", "cat", [], none, false, none⟩] }

/-- The stem of the only noun at the front of a word. -/
def sampleNounAt (word : List Char) : Placement :=
  ⟨word, ⟨⟨1, 0⟩, 0⟩, "cat.".toList, 0, 0, 3⟩

theorem Analyzer.exists_licensed_of_mem_run_sampleNouns :
    ∃ a w, build (Grammar.ofDocument default sampleNouns).grammar default = .ok a ∧
      w ∈ (a.matcher.run "catsm".toList 0 (sampleNounAt "catsm".toList) (.fresh 100)).1 ∧
      ∃ chain i, (∃ sub, (Grammar.ofDocument default sampleNouns).grammar.subLexeme? ⟨⟨1, 0⟩, 0⟩ =
          some sub ∧ (Grammar.ofDocument default sampleNouns).grammar.Licensed ⟨2, 6⟩ sub.paradigm
            (chain.map (·.inflexion))) ∧
        (Grammar.ofDocument default sampleNouns).grammar.mergeChain? chain = some i ∧
        (Grammar.ofDocument default sampleNouns).grammar.buildWordform? ⟨⟨1, 0⟩, 0⟩ i = some w := by
  have hfound : ((build (Grammar.ofDocument default sampleNouns).grammar
      default).toOption.any fun a =>
      !(a.matcher.run "catsm".toList 0 (sampleNounAt "catsm".toList) (.fresh 100)).1.isEmpty) =
        true := by
    decide +kernel
  obtain ⟨a, hbuild, hne⟩ := exists_eq_ok_of_any hfound
  obtain ⟨w, hw⟩ := List.exists_mem_of_ne_nil _ (by simpa using hne)
  obtain ⟨sub, chain, i, hsub, hlic, -, hi, hbuilt⟩ := exists_licensed_of_mem_run hbuild hw
  exact ⟨a, w, hbuild, hw, chain, i, ⟨sub, hsub, hlic⟩, hi, hbuilt⟩

end Morphology
