import Morphology.Proofs.Search.Soundness
import Morphology.Proofs.Search.Termination
import Morphology.Proofs.Transducer.Locality

/-!
# The search in a corrected word

Where the front of a stem is known to agree, the search does not look at the word, and behind it
only the rest of the word matters.  A stem in a corrected word therefore leads to the wordforms that
it leads to in the right word.

## Main definitions

* `Matcher.LooksAhead` — what may be tried at a place depends on the rest of the word only
* `Grammar.NoneInFront` — no inflexion precedes its stem
* `Placement.Mirrors` — a placement of the same stem in a word with the same rest
* `SearchState.placedAt` — the same state with another placement
* `Matcher.Tracks` — the search is in the stretch that is known to agree, or behind it

## Main statements

* `Analyzer.looksAhead_of_build` — the indices of a grammar look ahead
* `Matcher.Move.placedAt` — what is a move with one placement is one with the other
* `Matcher.Yields.placedAt` — what one placement leads to, the other leads to
-/

namespace Morphology

/-! ## What may be tried -/

/-- What may be tried at a place of a word depends on the rest of the word only. -/
structure Matcher.LooksAhead (m : Matcher) : Prop where
  candidates : ∀ {pos : Nat} {word word' : List Char}, AgreeFrom pos word word' → ∀ h slot,
    m.candidates h word' pos slot = m.candidates h word pos slot
  incorporations : ∀ {pos : Nat} {word word' : List Char}, AgreeFrom pos word word' →
    m.incorporations word' pos = m.incorporations word pos

theorem Analyzer.looksAhead_of_build {g : Grammar} {config : ParserConfig} {a : Analyzer}
    (h : build g config = .ok a) : a.matcher.LooksAhead := by
  obtain ⟨stems, affixes, incorporations, -, -, -, -, hmatcher, -⟩ := build_eq_ok h
  rw [hmatcher]
  constructor
  · intro pos word word' hagree h slot
    show affixes.candidates h word' pos slot = affixes.candidates h word pos slot
    simp only [AffixIndex.candidates, Transducer.valuesAt_congr _ hagree]
  · intro pos word word' hagree
    exact Transducer.valuesAt_congr _ hagree

/-- No inflexion precedes its stem. -/
def Grammar.NoneInFront (g : Grammar) : Prop :=
  ∀ id i, g.inflexion? id = some i → i.isLink = false → i.startWithSelf = false

/-! ## The same stem in another word -/

/-- A placement of the same stem in a word with the same rest.  Of both it is known that the front
of the stem agrees; here it stands at the front of the word. -/
structure Placement.Mirrors (p' p : Placement) : Prop where
  sub : p'.sub = p.sub
  pattern : p'.pattern = p.pattern
  length : p'.length = p.length
  front : p.patternStart = 0 ∧ p'.patternStart = 0 ∧ p'.wordStart = 0
  literal : ∀ c ∈ p.pattern.take p.length, isLiteral c = true
  word : AgreeFrom p.length p.word p'.word

/-- The same state with another placement. -/
def SearchState.placedAt (st : SearchState) (p : Placement) : SearchState :=
  { st with placement := p }

namespace Matcher

variable {m : Matcher} {st st' : SearchState} {p p' : Placement}

/-- Behind the stretch that is known to agree. -/
structure IsPast (p : Placement) (st : SearchState) : Prop where
  stemPos : p.length ≤ st.stemPos
  pos : p.length ≤ st.pos

/-- The search is in the stretch that is known to agree, with nothing but the stem, or behind it. -/
inductive Tracks (p : Placement) (st : SearchState) : Prop
  | within (hcurrent : st.current = none) (hlevels : st.levels = []) (hpos : st.stemPos = st.pos)
      (hlt : st.pos < p.length)
  | past (h : IsPast p st)

/-- In a level the stretch is behind. -/
theorem Tracks.isPast_of_current (h : Tracks p st) {level : Nat} (hcur : st.current = some level) :
    IsPast p st := by
  cases h with
  | within hcurrent => exact absurd (hcur.symm.trans hcurrent) (Option.some_ne_none level)
  | past h => exact h

/-- A character of the stem that is not literal is behind the stretch. -/
theorem Tracks.isPast_of_char (h : Tracks st.placement st) (hp : p'.Mirrors st.placement) {c : Char}
    (hc : st.stemChar? = some c) (hliteral : isLiteral c = false) : IsPast st.placement st := by
  cases h with
  | within _ _ hpos hlt =>
    have hmem : c ∈ st.placement.pattern.take st.placement.length := by
      apply List.mem_of_getElem?
      rw [List.getElem?_take_of_lt (hpos ▸ hlt)]
      exact hc
    exact absurd (hliteral.symm.trans (hp.literal c hmem)) Bool.false_ne_true
  | past h => exact h

/-! ## Tests that come out the same -/

theorem AtStem.placedAt {sub : SubLexeme} {c : Char} (hat : AtStem m st sub c)
    (hp : p'.Mirrors st.placement) : AtStem m (st.placedAt p') sub c where
  current := hat.current
  char := by
    show p'.pattern[st.stemPos]? = some c
    rw [hp.pattern]
    exact hat.char
  sub := by
    show m.grammar.subLexeme? p'.sub = some sub
    rw [hp.sub]
    exact hat.sub

theorem AtPart.placedAt {level : Nat} {l : Level} {i : Inflexion} {part : FlexPart}
    (hat : AtPart m st level l i part) (p' : Placement) :
    AtPart m (st.placedAt p') level l i part :=
  ⟨hat.current, hat.level, hat.inflexion, hat.part⟩

theorem wordChar?_placedAt (hagree : AgreeFrom st.pos st.placement.word p'.word) :
    (st.placedAt p').wordChar? = st.wordChar? :=
  hagree.char st.pos (Nat.le_refl _)

theorem handsOver_placedAt (hp : p'.Mirrors st.placement) (level part : Nat) (i : Inflexion) :
    handsOver (st.placedAt p') level part i = handsOver st level part i := by
  simp only [handsOver, SearchState.placedAt, Placement.startsWithBoundary, hp.pattern]
  rfl

theorem reachable_placedAt (hlooks : m.LooksAhead)
    (hagree : AgreeFrom st.pos st.placement.word p'.word) (slot : Bool) (depth : Nat) (h : Handle) :
    m.reachable (st.placedAt p') slot depth h = m.reachable st slot depth h := by
  induction depth generalizing h with
  | zero => rfl
  | succ depth ih =>
    -- The candidates are those of the rest of the word, and so are those behind the links.
    have hcandidates : m.candidates h p'.word st.pos slot =
        m.candidates h st.placement.word st.pos slot := hlooks.candidates hagree h slot
    have hlinks : m.reachable (st.placedAt p') slot depth = m.reachable st slot depth := funext ih
    simp only [reachable, hlinks]
    simp only [SearchState.placedAt, SearchState.uses, hcandidates]
    rfl

/-- The same inflexions may follow. -/
theorem mem_mayFollow_placedAt (hlooks : m.LooksAhead) {slot : Bool} {h : Handle} {id : InflexionId}
    (hid : id ∈ m.mayFollow st slot h) (hagree : AgreeFrom st.pos st.placement.word p'.word) :
    id ∈ m.mayFollow (st.placedAt p') slot h := by
  show id ∈ m.reachable (st.placedAt p') slot _ h
  rw [reachable_placedAt hlooks hagree]
  exact hid

theorem canContinue_placedAt (hp : p'.Mirrors st.placement) :
    m.canContinue (st.placedAt p') = m.canContinue st := by
  simp only [canContinue, SearchState.placedAt, SearchState.wordDone, SearchState.stemChar?,
    Placement.endsWithBoundary, hp.pattern, hp.word.length]
  rfl

theorem isComplete_placedAt (hp : p'.Mirrors st.placement) :
    m.isComplete (st.placedAt p') = m.isComplete st := by
  simp only [isComplete, SearchState.placedAt, SearchState.wordDone, hp.pattern, hp.word.length]

/-- A wordform is accepted with the other placement too, if it answers to the other host. -/
theorem accept?_placedAt (hp : p'.Mirrors st.placement) {host host' : List Char}
    {maxEdits maxEdits' : Nat} {w : Wordform} (hacc : m.accept? host maxEdits st = some w)
    (hanswers : m.answers host' maxEdits' w.wf.toList = true) :
    m.accept? host' maxEdits' (st.placedAt p') = some w := by
  obtain ⟨hcomplete, -, i, hmerged, hbuilt⟩ := of_accept?_eq_some hacc
  have hcomplete : m.isComplete (st.placedAt p') = true :=
    (isComplete_placedAt hp).trans hcomplete
  have hbuilt : m.grammar.buildWordform? (st.placedAt p').placement.sub i = some w := by
    show m.grammar.buildWordform? p'.sub i = some w
    rw [hp.sub]
    exact hbuilt
  have hmerged : m.grammar.mergeChain? ((st.placedAt p').levels.map (·.link)) = some i := hmerged
  simp [accept?, hcomplete, hmerged, hbuilt, hanswers]

/-! ## Moves -/

theorem startWithSelf_eq_false_of_mem_mayFollow (hnone : m.grammar.NoneInFront) {slot : Bool}
    {h : Handle} {id : InflexionId} (hid : id ∈ m.mayFollow st slot h) {i : Inflexion}
    (hi : m.grammar.inflexion? id = some i) : i.startWithSelf = false := by
  obtain ⟨-, j, hj, hlink⟩ := proper_of_mem_reachable hid
  obtain rfl : i = j := Option.some.inj (hi.symm.trans hj)
  exact hnone id i hi hlink

theorem stepSelf_eq_nil (hnone : m.grammar.NoneInFront) (st : SearchState) (h : Handle) :
    m.stepSelf st h = [] := by
  unfold stepSelf
  rw [List.map_eq_nil_iff, List.filter_eq_nil_iff]
  intro id hid hself
  obtain ⟨i, hi, hself⟩ := Option.any_eq_true _ _ |>.1 hself
  have hplain := startWithSelf_eq_false_of_mem_mayFollow hnone hid hi
  exact Bool.false_ne_true (hplain.symm.trans hself)

theorem Move.placement_eq (hmove : Move m st st') : st'.placement = st.placement := by
  rcases hmove.sameChain_or_opens with hsame | ⟨st₁, slot, h, id, hsame, -, -, -, rfl⟩
  · exact hsame.placement
  · exact hsame.placement

/-- In the stretch that is known to agree both placements only check the place; behind it both read
the same character of the word. -/
theorem mem_stepStemChar_placedAt (hp : p'.Mirrors st.placement) (htracks : Tracks st.placement st)
    {c : Char} (hc : st.stemChar? = some c) (hread : st' ∈ stepStemChar st c) :
    st'.placedAt p' ∈ stepStemChar (st.placedAt p') c ∧ Tracks st.placement st' := by
  obtain ⟨hfront, hfront', hstart'⟩ := hp.front
  have hcovers : st.placement.covers st.stemPos = decide (st.stemPos < st.placement.length) := by
    simp [Placement.covers, hfront]
  have hcovers' : p'.covers st.stemPos = decide (st.stemPos < st.placement.length) := by
    simp [Placement.covers, hfront', hp.length]
  by_cases hbreak : c = morphBreak
  · -- A break is behind the stretch, since the key has none.
    have hpast := htracks.isPast_of_char hp hc (hbreak ▸ by decide)
    rw [stepStemChar, if_pos hbreak] at hread ⊢
    obtain rfl := List.mem_singleton.1 hread
    exact ⟨List.mem_singleton_self _, .past ⟨Nat.le_succ_of_le hpast.stemPos, hpast.pos⟩⟩
  · rw [stepStemChar, if_neg hbreak] at hread ⊢
    simp only [List.mem_ite_nil_right, List.mem_singleton] at hread ⊢
    obtain ⟨hmatched, rfl⟩ := hread
    refine ⟨⟨?_, rfl⟩, ?_⟩
    · show (if p'.covers st.stemPos then st.pos == p'.wordStart + st.stemPos - p'.patternStart
        else (st.placedAt p').wordChar?.any (agree c)) = true
      rw [hcovers] at hmatched
      rw [hcovers']
      -- In the stretch the place decides, and it is the first one of the word here; behind it the
      -- same character is read.
      cases htracks with
      | within _ _ hpos hlt => simp [hpos, hlt, hstart', hfront']
      | past h =>
        rw [if_neg (by simpa using h.stemPos)] at hmatched ⊢
        rwa [wordChar?_placedAt (hp.word.mono h.pos)]
    · cases htracks with
      | within hcurrent hlevels hpos hlt =>
        -- The step may be the one that leaves the stretch.
        by_cases hnext : st.pos + 1 < st.placement.length
        · exact .within hcurrent hlevels (congrArg (· + 1) hpos) hnext
        · exact .past ⟨by dsimp only; omega, by dsimp only; omega⟩
      | past h => exact .past ⟨Nat.le_succ_of_le h.stemPos, Nat.le_succ_of_le h.pos⟩

/-- A stem whose front is known to agree is found only at the front of a word, as nothing is read
before it. -/
theorem Yields.wordStart_eq_zero {host : List Char} {maxEdits : Nat} {w : Wordform}
    (h : m.Yields host maxEdits (.start p) w) (hnone : m.grammar.NoneInFront)
    (hfront : p.patternStart = 0) (hlength : 0 < p.length) {c : Char} (hc : p.pattern[0]? = some c)
    (hliteral : isLiteral c = true) : p.wordStart = 0 := by
  have hchar {d : Char} (hd : p.pattern[0]? = some d) : isLiteral d = true := by
    obtain rfl : c = d := Option.some.inj (hc.symm.trans hd)
    exact hliteral
  -- The search does not end at once: the stem is not read.
  rcases yields_iff.1 h with ⟨-, hacc⟩ | ⟨-, st', hstep, -⟩
  · have hcomplete := (of_accept?_eq_some hacc).1
    simp [isComplete, SearchState.start] at hcomplete
  · cases mem_step_iff.1 hstep with
    | stemChar hat _ hpast _ => exact absurd ⟨rfl, rfl, rfl⟩ hpast
    | @firstChar sub d _ hat _ _ _ hread =>
      have hcovers : p.covers 0 = true := by simp [Placement.covers, hfront, hlength]
      -- The first character of the stem is literal, so it is no break.
      have hbreak : d ≠ morphBreak := by
        rintro rfl
        exact absurd (hchar hat.char) (by decide)
      rw [stepStemChar, if_neg hbreak] at hread
      simp only [List.mem_ite_nil_right] at hread
      have hplace := hread.1
      change (if p.covers 0 then 0 == p.wordStart + 0 - p.patternStart else _) = true at hplace
      rw [if_pos hcovers, beq_iff_eq] at hplace
      omega
    | openFront _ _ _ hid hi hself =>
      have hplain := startWithSelf_eq_false_of_mem_mayFollow hnone hid hi
      exact absurd (hplain.symm.trans hself) Bool.false_ne_true
    | passFront _ _ _ hsome => exact absurd (stepSelf_eq_nil hnone _ _) hsome
    | openStem hat | enterFirst hat => exact absurd (hchar hat.char) (by decide)
    | leaveLevel hcur => exact absurd hcur.symm (Option.some_ne_none _)
    -- All other moves are made in a level, and there is none.
    | handOver hat | passMark hat | enterNext hat | openNext hat | incorporate hat | endPart hat
    | readChar hat => exact absurd hat.current.symm (Option.some_ne_none _)

/-- What is a move with one placement is one with the other. -/
theorem Move.placedAt (hlooks : m.LooksAhead) (hnone : m.grammar.NoneInFront)
    (hp : p'.Mirrors st.placement) (htracks : Tracks st.placement st) (hmove : Move m st st') :
    Move m (st.placedAt p') (st'.placedAt p') ∧ Tracks st.placement st' := by
  cases hmove with
  | stemChar hat hc hfront hread =>
    obtain ⟨hread', htracks'⟩ := mem_stepStemChar_placedAt hp htracks hat.char hread
    exact ⟨.stemChar (hat.placedAt hp) hc hfront hread', htracks'⟩
  | @firstChar sub c _ hat hc hfront _ hread =>
    -- That inflexions in front of the stem have been tried makes no difference.
    have htried : Tracks st.placement st.markTried := by
      cases htracks with
      | within hcurrent hlevels hpos hlt => exact .within hcurrent hlevels hpos hlt
      | past h => exact .past ⟨h.stemPos, h.pos⟩
    have hp' : p'.Mirrors st.markTried.placement := hp
    obtain ⟨hread', htracks'⟩ := mem_stepStemChar_placedAt hp' htried hat.char hread
    exact ⟨.firstChar (hat.placedAt hp) hc hfront (stepSelf_eq_nil hnone _ _) hread', htracks'⟩
  -- No inflexion precedes its stem.
  | openFront _ _ _ hid hi hself =>
    have hplain := startWithSelf_eq_false_of_mem_mayFollow hnone hid hi
    exact absurd (hplain.symm.trans hself) Bool.false_ne_true
  | passFront _ _ _ hsome => exact absurd (stepSelf_eq_nil hnone _ _) hsome
  | @openStem sub id hat hnil hid =>
    -- A boundary is no part of a key, so the stretch is behind, and the words agree from here on.
    have hpast := htracks.isPast_of_char hp hat.char (by decide)
    have hid' := mem_mayFollow_placedAt hlooks hid (hp.word.mono hpast.pos)
    exact ⟨.openStem (hat.placedAt hp) hnil hid',
      .past ⟨Nat.le_succ_of_le hpast.stemPos, hpast.pos⟩⟩
  | enterFirst hat hne =>
    have hpast := htracks.isPast_of_char hp hat.char (by decide)
    exact ⟨.enterFirst (hat.placedAt hp) hne,
      .past ⟨Nat.le_succ_of_le hpast.stemPos, hpast.pos⟩⟩
  | leaveLevel hcur hl hi hend =>
    -- In a level the stretch is behind as well.
    have hpast := htracks.isPast_of_current hcur
    exact ⟨.leaveLevel hcur hl hi hend, .past ⟨hpast.stemPos, hpast.pos⟩⟩
  | @handOver level l i part hat hrole hover =>
    have hpast := htracks.isPast_of_current hat.current
    rw [← handsOver_placedAt hp] at hover
    exact ⟨.handOver (hat.placedAt p') hrole hover, .past ⟨hpast.stemPos, hpast.pos⟩⟩
  | @passMark level l i part hat hrole =>
    have hpast := htracks.isPast_of_current hat.current
    rw [← handsOver_placedAt hp] at hrole
    exact ⟨.passMark (hat.placedAt p') hrole, .past ⟨hpast.stemPos, hpast.pos⟩⟩
  | enterNext hat hrole hbelow =>
    have hpast := htracks.isPast_of_current hat.current
    exact ⟨.enterNext (hat.placedAt p') hrole hbelow, .past ⟨hpast.stemPos, hpast.pos⟩⟩
  | @openNext level l i part h id hat hrole hlast hh hid =>
    have hpast := htracks.isPast_of_current hat.current
    have hid' := mem_mayFollow_placedAt hlooks hid (hp.word.mono hpast.pos)
    exact ⟨.openNext (hat.placedAt p') hrole hlast hh hid', .past ⟨hpast.stemPos, hpast.pos⟩⟩
  | @incorporate level l i part sub length hat hrole hsub =>
    have hpast := htracks.isPast_of_current hat.current
    rw [← hlooks.incorporations (hp.word.mono hpast.pos)] at hsub
    exact ⟨.incorporate (hat.placedAt p') hrole hsub,
      .past ⟨hpast.stemPos, Nat.le_add_right_of_le hpast.pos⟩⟩
  | endPart hat hrole hend =>
    have hpast := htracks.isPast_of_current hat.current
    exact ⟨.endPart (hat.placedAt p') hrole hend, .past ⟨hpast.stemPos, hpast.pos⟩⟩
  | readChar hat hrole hc hread =>
    have hpast := htracks.isPast_of_current hat.current
    rw [← wordChar?_placedAt (hp.word.mono hpast.pos)] at hread
    exact ⟨.readChar (hat.placedAt p') hrole hc hread,
      .past ⟨hpast.stemPos, Nat.le_succ_of_le hpast.pos⟩⟩

/-- What one placement leads to, the other leads to, as far as it answers to the host. -/
theorem Yields.placedAt {host host' : List Char} {maxEdits maxEdits' : Nat} {w : Wordform}
    (h : m.Yields host maxEdits st w) (hlooks : m.LooksAhead) (hnone : m.grammar.NoneInFront)
    (hp : p'.Mirrors p) (hplace : st.placement = p) (htracks : Tracks p st)
    (hanswers : m.answers host' maxEdits' w.wf.toList = true) :
    m.Yields host' maxEdits' (st.placedAt p') w := by
  induction h using Yields.induction with
  -- The same chain is complete with the other placement, and spells the same wordform.
  | accept st hend hacc =>
    subst hplace
    exact yields_iff.2 (.inl ⟨(canContinue_placedAt hp).trans hend,
      accept?_placedAt hp hacc hanswers⟩)
  -- One move with each placement, and then the rest by induction.
  | move st st' hgo hmove _ ih =>
    subst hplace
    obtain ⟨hmove', htracks'⟩ := hmove.placedAt hlooks hnone hp htracks
    have hyields := ih hmove.placement_eq htracks'
    exact yields_iff.2 (.inr ⟨(canContinue_placedAt hp).trans hgo, _,
      mem_step_iff.2 hmove', hyields⟩)

end Matcher

end Morphology
