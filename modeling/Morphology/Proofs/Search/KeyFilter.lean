import Morphology.Proofs.Search.Budget
import Morphology.Proofs.Search.KeyReading

/-!
# What the keys of inflexions leave out

The matcher tries only the inflexions whose key the word has.  Compared with trying all inflexions
of a paradigm, this loses no wordform as long as the keys stand where the search reads them.

## Main definitions

* `Matcher.unfiltered`, `Analyzer.unfiltered` — all inflexions of a paradigm are candidates
* `Analyzer.FiltersNothing` — the candidates by keys find what all candidates do
* `Grammar.KeysInPlace` — no key passes over a boundary that hands over

## Main statements

* `Matcher.Keyed.mem_mayFollow` — what leads to a wordform is a candidate by its key
* `Analyzer.filtersNothing_of_keysInPlace` — with keys in place nothing is lost
* `Analyzer.not_filtersNothing_samples` — what is lost otherwise
-/

namespace Morphology

/-! ## All inflexions as candidates -/

/-- The inflexions of a paradigm, in order. -/
def Grammar.inflexionsOf (g : Grammar) (h : Handle) : List InflexionId :=
  ((g.paradigm? h).map fun p => (List.range p.inflexions.length).map (⟨h, ·⟩)).getD []

theorem Grammar.mem_inflexionsOf {g : Grammar} {h : Handle} {id : InflexionId} :
    id ∈ g.inflexionsOf h ↔ id.paradigm = h ∧ ∃ i, g.inflexion? id = some i := by
  obtain ⟨h', n⟩ := id
  unfold inflexionsOf
  constructor
  · intro hid
    cases hp : g.paradigm? h with
    | none => simp [hp] at hid
    | some p =>
      simp only [hp, Option.map_some, Option.getD_some, List.mem_map, List.mem_range] at hid
      obtain ⟨k, hk, heq⟩ := hid
      obtain ⟨rfl, rfl⟩ : h = h' ∧ k = n := by simpa using heq
      exact ⟨rfl, _, inflexion?_of_paradigm? hp (List.getElem?_eq_getElem hk)⟩
  · rintro ⟨rfl, i, hi⟩
    obtain ⟨p, hp, hget⟩ := paradigm?_of_inflexion? hi
    simp only [hp, Option.map_some, Option.getD_some, List.mem_map, List.mem_range]
    exact ⟨n, (List.getElem?_eq_some_iff.1 hget).1, rfl⟩

/-- The matcher with other candidates. -/
def Matcher.withCandidates (m : Matcher)
    (candidates : Handle → List Char → Nat → Bool → List InflexionId) : Matcher :=
  { m with candidates := candidates }

/-- The matcher that tries all inflexions of a paradigm. -/
def Matcher.unfiltered (m : Matcher) : Matcher :=
  m.withCandidates fun h _ _ _ => m.grammar.inflexionsOf h

/-- The analyzer that tries all inflexions of a paradigm. -/
def Analyzer.unfiltered (a : Analyzer) : Analyzer :=
  { a with matcher := a.matcher.unfiltered }

/-- With enough steps, the analyses without edits are those that trying all inflexions finds. -/
def Analyzer.FiltersNothing (a : Analyzer) (word : List Char) : Prop :=
  ∃ n, ∀ budget : Budget, budget.exhausted = false → n ≤ budget.remaining →
    ∀ w, w ∈ (a.pass word 0 budget).1 ↔ w ∈ (a.unfiltered.pass word 0 budget).1

/-! ## Moves with other candidates -/

namespace Matcher

variable {m : Matcher} {st st' st₁ : SearchState} {slot : Bool} {h : Handle} {id : InflexionId}
  {candidates : Handle → List Char → Nat → Bool → List InflexionId}
  {host : List Char} {maxEdits : Nat} {w : Wordform} {p : Placement}

/-- In a state one level is to be opened, with an inflexion that is looked for in a paradigm. -/
structure Opening (g : Grammar) (st st₁ : SearchState) (slot : Bool) (h : Handle) : Prop where
  sameChain : st.SameChain st₁
  pos : st₁.pos = st.pos
  /-- With the front of the stem behind, only a continuation opens a level near it. -/
  front : slot = false → st₁.stemPos < 2 →
    st₁.levels ≠ [] ∧ ∃ before i, g.inflexion? before = some i ∧ h ∈ i.subsequent

theorem AtStem.withCandidates {sub : SubLexeme} {c : Char} (hat : AtStem m st sub c) :
    AtStem (m.withCandidates candidates) st sub c :=
  ⟨hat.current, hat.char, hat.sub⟩

theorem AtPart.withCandidates {level : Nat} {l : Level} {i : Inflexion} {part : FlexPart}
    (hat : AtPart m st level l i part) : AtPart (m.withCandidates candidates) st level l i part :=
  ⟨hat.current, hat.level, hat.inflexion, hat.part⟩

/-- Once the inflexions in front of the stem are tried, the stem is read. -/
theorem step_markTried {sub : SubLexeme} {c : Char} (hat : AtStem m st sub c) (hc : c ≠ boundary) :
    m.step st.markTried = stepStemChar st.markTried c := by
  have hat' : AtStem m st.markTried sub c := ⟨hat.current, hat.char, hat.sub⟩
  exact step_of_stemChar hat' hc fun hfront => Bool.false_ne_true hfront.2.2.symm

/-- What is found behind the first character of the stem is found in front of it, whether or not
there are inflexions to try before. -/
theorem yields_of_firstChar {sub : SubLexeme} {c : Char} (hgo : m.canContinue st = true)
    (hat : AtStem m st sub c) (hc : c ≠ boundary) (hfront : st.atFront)
    (hread : st' ∈ stepStemChar st.markTried c) (h : m.Yields host maxEdits st' w) :
    m.Yields host maxEdits st w := by
  by_cases hnone : m.stepSelf st.markTried sub.paradigm = []
  · have hstep := mem_step_iff.2 (.firstChar hat hc hfront hnone hread)
    exact yields_iff.2 (.inr ⟨hgo, st', hstep, h⟩)
  · -- With inflexions to try there is one more state on the way.
    have hstep : st' ∈ m.step st.markTried := by
      rw [step_markTried hat hc]
      exact hread
    have htried : m.Yields host maxEdits st.markTried w :=
      yields_iff.2 (.inr ⟨hgo, st', hstep, h⟩)
    have hpass := mem_step_iff.2 (.passFront hat hc hfront hnone)
    exact yields_iff.2 (.inr ⟨hgo, _, hpass, htried⟩)

/-- What a move leads to with other candidates, the state before it leads to, provided that an
inflexion that is opened is still a candidate. -/
theorem yields_of_move (candidates : Handle → List Char → Nat → Bool → List InflexionId)
    (hgo : m.canContinue st = true) (hmove : Move m st st')
    (hopen : ∀ st₁ slot h id, Opening m.grammar st st₁ slot h → id ∈ m.mayFollow st₁ slot h →
      st' = m.openLevel st₁ id → id ∈ (m.withCandidates candidates).mayFollow st₁ slot h)
    (h : (m.withCandidates candidates).Yields host maxEdits st' w) :
    (m.withCandidates candidates).Yields host maxEdits st w := by
  have hsame (hmove : Move (m.withCandidates candidates) st st') :
      (m.withCandidates candidates).Yields host maxEdits st w :=
    yields_iff.2 (.inr ⟨hgo, st', mem_step_iff.2 hmove, h⟩)
  cases hmove with
  | stemChar hat hc hfront hread => exact hsame (.stemChar hat.withCandidates hc hfront hread)
  | firstChar hat hc hfront _ hread =>
    exact yields_of_firstChar hgo hat.withCandidates hc hfront hread h
  | @openFront sub c id i hat hc hfront hid hi hself =>
    have ho : Opening m.grammar st st.markTried true sub.paradigm := {
      sameChain := ⟨rfl, rfl, rfl⟩
      pos := rfl
      front := fun hslot => absurd hslot (by decide) }
    exact hsame (.openFront hat.withCandidates hc hfront (hopen _ _ _ _ ho hid rfl) hi hself)
  | passFront hat hc hfront _ =>
    rcases yields_iff.1 h with ⟨hend, -⟩ | ⟨-, st'', hstep, h⟩
    · have hgo' : (m.withCandidates candidates).canContinue st.markTried = true := hgo
      exact absurd (hend.symm.trans hgo') Bool.false_ne_true
    · rw [step_markTried hat.withCandidates hc] at hstep
      exact yields_of_firstChar hgo hat.withCandidates hc hfront hstep h
  | @openStem sub id hat hnil hid =>
    have ho : Opening m.grammar st { st with stemPos := st.stemPos + 1 } (st.stemPos == 0)
        sub.paradigm := {
      sameChain := ⟨rfl, rfl, rfl⟩
      pos := rfl
      front := by
        intro hslot hlt
        have hlt : st.stemPos + 1 < 2 := hlt
        rw [beq_eq_false_iff_ne] at hslot
        omega }
    exact hsame (.openStem hat.withCandidates hnil (hopen _ _ _ _ ho hid rfl))
  | enterFirst hat hne => exact hsame (.enterFirst hat.withCandidates hne)
  | leaveLevel hcur hl hi hend => exact hsame (.leaveLevel hcur hl hi hend)
  | handOver hat hrole hover => exact hsame (.handOver hat.withCandidates hrole hover)
  | passMark hat hrole => exact hsame (.passMark hat.withCandidates hrole)
  | enterNext hat hrole hbelow => exact hsame (.enterNext hat.withCandidates hrole hbelow)
  | @openNext level l i part start id hat hrole hlast hh hid =>
    have ho : Opening m.grammar st (st.modifyLevel level (·.nextPart)) false start := {
      sameChain := st.sameChain_nextPart level
      pos := rfl
      front := by
        intro _ _
        refine ⟨?_, l.link.inflexion, i, hat.inflexion, hh⟩
        apply List.ne_nil_of_length_pos
        simp [hlast] }
    exact hsame (.openNext hat.withCandidates hrole hlast hh (hopen _ _ _ _ ho hid rfl))
  | incorporate hat hrole hsub => exact hsame (.incorporate hat.withCandidates hrole hsub)
  | endPart hat hrole hend => exact hsame (.endPart hat.withCandidates hrole hend)
  | readChar hat hrole hc hread => exact hsame (.readChar hat.withCandidates hrole hc hread)

/-! ## Places in the word -/

theorem pos_le_of_mem_stepStemChar {c : Char}
    (hwithin : st.placement.wordStart + st.placement.length ≤ st.placement.word.length)
    (hpos : st.pos ≤ st.placement.word.length) (hread : st' ∈ stepStemChar st c) :
    st'.pos ≤ st.placement.word.length := by
  unfold stepStemChar at hread
  split at hread
  · -- A break in the stem is passed without reading.
    rw [List.mem_singleton.1 hread]
    exact hpos
  · simp only [List.mem_ite_nil_right, List.mem_singleton] at hread
    obtain ⟨hmatched, rfl⟩ := hread
    show st.pos + 1 ≤ _
    split at hmatched
    · -- In the stretch that is known to agree the word is not looked at.
      rename_i hcovers
      simp only [Placement.covers, Bool.and_eq_true, decide_eq_true_eq] at hcovers
      rw [beq_iff_eq] at hmatched
      omega
    · exact pos_lt_of_wordChar? hmatched

/-- The search stays in the word. -/
theorem Move.pos_le (hmove : Move m st st')
    (hwithin : st.placement.wordStart + st.placement.length ≤ st.placement.word.length)
    (hinc : ∀ sub length, (sub, length) ∈ m.incorporations st.placement.word st.pos →
      st.pos + length ≤ st.placement.word.length)
    (hpos : st.pos ≤ st.placement.word.length) : st'.pos ≤ st.placement.word.length := by
  -- Of the moves, only those that read a character or incorporate a stem go on in the word.
  cases hmove with
  | stemChar _ _ _ hread => exact pos_le_of_mem_stepStemChar hwithin hpos hread
  | firstChar _ _ _ _ hread =>
    have hmark : st'.pos ≤ st.markTried.placement.word.length :=
      pos_le_of_mem_stepStemChar hwithin hpos hread
    exact hmark
  | incorporate _ _ hsub => exact hinc _ _ hsub
  | readChar _ _ _ hread => exact pos_lt_of_wordChar? hread
  | _ => exact hpos

end Matcher

/-! ## Keys that the word has -/

/-- The keys of all inflexions stand where the search reads them: in front of a key it passes over
no boundary that hands over.  Behind a continuation, the search can still be at the front of a stem
that begins with a boundary. -/
structure Grammar.KeysInPlace (g : Grammar) : Prop where
  inPlace : ∀ id i, g.inflexion? id = some i → i.KeyInPlace
  atFront : (∃ id sub, g.subLexeme? id = some sub ∧ sub.startsWithBoundary = true) →
    ∀ before j h id i, g.inflexion? before = some j → h ∈ j.subsequent → g.Reaches h id →
      g.inflexion? id = some i → i.KeyInPlaceAtFront

namespace Matcher

variable {m : Matcher} {st st' st₁ : SearchState} {slot : Bool} {start : Handle} {id : InflexionId}
  {host : List Char} {w : Wordform} {p : Placement}

/-- A placement in a word that is not corrected, in a matcher that finds every key. -/
structure Keyed (m : Matcher) (p : Placement) (host : List Char) : Prop where
  word : p.word = host
  within : p.wordStart + p.length ≤ p.word.length
  known : ∃ sub, m.grammar.subLexeme? p.sub = some sub ∧ p.pattern = sub.pattern
  owned : m.CandidatesOwned
  incorporated : ∀ word pos sub length, (sub, length) ∈ m.incorporations word pos →
    m.grammar.MayBeIncorporated sub ∧ pos + length ≤ word.length
  candidate : ∀ id i pos slot, m.grammar.inflexion? id = some i → pos ≤ p.word.length →
    KeyAt (if slot then i.slotKey else i.anchoredKey) (p.word.drop pos) →
      id ∈ m.candidates id.paradigm p.word pos slot
  wellFormed : ∀ id i, m.grammar.inflexion? id = some i → i.WellFormed
  keys : m.grammar.KeysInPlace
  plain : wildcard ∉ host ∨ ∀ id i, m.grammar.inflexion? id = some i →
    wildcard ∉ i.anchoredKey ∧ wildcard ∉ i.slotKey

theorem Opening.derivations (ho : Opening m.grammar st st₁ slot start) (hs : Sound m p st) :
    st₁.derivations = m.grammar.derivationsOf st₁.chain := by
  rw [ho.sameChain.derivations, ho.sameChain.chain, hs.derivations]

theorem candidatesOwned_unfiltered (m : Matcher) : m.unfiltered.CandidatesOwned := by
  intro h word pos slot id hid
  exact (Grammar.mem_inflexionsOf.1 hid).1

theorem sound_unfiltered : Sound m.unfiltered p st ↔ Sound m p st :=
  ⟨fun h => ⟨h.placement, h.legal, h.derivations, h.incorporates⟩,
    fun h => ⟨h.placement, h.legal, h.derivations, h.incorporates⟩⟩

theorem Yields.wf_eq (h : m.Yields host 0 st w) : w.wf.toList = host := by
  obtain ⟨last, -, -, hacc⟩ := h
  have hanswers := (of_accept?_eq_some hacc).2.1
  simpa [answers] using hanswers

namespace Keyed

theorem mayBeIncorporated (hk : Keyed m p host) :
    ∀ word pos sub length, (sub, length) ∈ m.incorporations word pos →
      m.grammar.MayBeIncorporated sub :=
  fun word pos sub length hsub => (hk.incorporated word pos sub length hsub).1

/-- No level is that of a link. -/
theorem proper (hk : Keyed m p host) (hs : Sound m p st) :
    ∀ j ∈ st.chain, ∃ i, m.grammar.inflexion? j = some i ∧ i.isLink = false := by
  intro j hj
  obtain ⟨sub, hsub, -⟩ := hk.known
  exact ((hs.legal sub hsub).licensed (List.ne_nil_of_mem hj)).proper j hj

/-- A key without a place for a stem in it is found as it is read: if the word has no `wildcard`,
the keys of an inflexion that leads to a wordform have none, for the wordform has all its
characters. -/
theorem wildcard_not_mem (hk : Keyed m p host) (hs : Sound m p st) (hid : id ∈ st.chain)
    {i : Inflexion} (hi : m.grammar.inflexion? id = some i) (hy : m.Yields host 0 st w) :
    wildcard ∉ i.anchoredKey ∧ wildcard ∉ i.slotKey := by
  rcases hk.plain with hhost | hkeys
  · have hkey {skip : Role → Bool} : wildcard ∉ Inflexion.keyFrom skip i.parts := by
      intro hmem
      obtain ⟨part, hpart, hrole, hc⟩ := exists_part_of_mem_keyFrom hmem
      apply hhost
      rw [← hy.wf_eq]
      exact hy.mem_wf hk.owned hk.mayBeIncorporated hs hid hi hpart hrole hc
    exact ⟨hkey, hkey⟩
  · exact hkeys id i hi

/-- An inflexion that leads to a wordform is a candidate by its key: what `unfiltered` may open, the
matcher may open as well. -/
theorem mem_mayFollow (hk : Keyed m p host) (hs : Sound m p st) (hpos : st.pos ≤ p.word.length)
    (ho : Opening m.grammar st st₁ slot start)
    (hid : id ∈ m.unfiltered.mayFollow st₁ slot start) (hs' : Sound m p (m.openLevel st₁ id))
    (hy : m.Yields host 0 (m.openLevel st₁ id) w) : id ∈ m.mayFollow st₁ slot start := by
  have hplacement : st₁.placement = p := ho.sameChain.placement.trans hs.placement
  have hder := ho.derivations hs
  have hfollow : m.grammar.MayFollow m.limits st₁.chain start id :=
    mayFollow_of_mem (m := m.unfiltered) (candidatesOwned_unfiltered m) hder hid
  obtain ⟨links, -, hleads⟩ := hfollow.reached
  obtain ⟨-, i, -, -, hi, -⟩ := hleads.target
  have hwf := hk.wellFormed id i hi
  obtain ⟨hanchored, hslot⟩ := hk.wildcard_not_mem hs' (by simp [openLevel_chain]) hi hy
  apply Matcher.mem_mayFollow hder (ho.sameChain.chain ▸ hk.proper hs) hfollow
  intro j k hj hcase
  rw [hplacement]
  apply hk.candidate j k st₁.pos slot hj (ho.pos ▸ hpos)
  rcases hcase with hlink | rfl
  · -- A link has no parts, and so empty keys.
    have hnil := Inflexion.parts_of_isLink hlink
    cases slot <;> simp [Inflexion.anchoredKey, Inflexion.slotKey, Inflexion.keyFrom, hnil, KeyAt]
  · obtain rfl : i = k := Option.some.inj (hi.symm.trans hj)
    -- In the stem the key is read at once, behind the stem up to the next boundary.
    cases slot with
    | true =>
      have hagrees := hy.agrees_slotKey hi hwf
      rw [hplacement] at hagrees
      simpa using hagrees.keyAt hslot
    | false =>
      -- The key that skips the front is asked for only where the front stands already.
      have hfront : st₁.stemPos < 2 → st₁.placement.startsWithBoundary = true →
          st₁.levels ≠ [] ∧ i.KeyInPlaceAtFront := by
        intro hlt hfront
        obtain ⟨hne, before, k, hbefore, hh⟩ := ho.front rfl hlt
        obtain ⟨sub, hsub, hpattern⟩ := hk.known
        have hstem : sub.startsWithBoundary = true := by
          rw [hplacement, Placement.startsWithBoundary, hpattern] at hfront
          exact hfront
        exact ⟨hne, hk.keys.atFront ⟨p.sub, sub, hsub, hstem⟩ before k start j i hbefore hh
          hleads.reaches hi⟩
      have hagrees := hy.agrees_anchoredKey hi hwf (hk.keys.inPlace j i hi) hfront
      rw [hplacement] at hagrees
      simpa using hagrees.keyAt hanchored

/-- What trying all inflexions leads to is found by the candidates too, if the placement is
`Keyed`. -/
theorem yields_of_unfiltered (hk : Keyed m p host) (h : m.unfiltered.Yields host 0 st w)
    (hs : Sound m p st) (hpos : st.pos ≤ p.word.length) : m.Yields host 0 st w := by
  induction h using Yields.induction with
  | accept st hend hacc => exact yields_iff.2 (.inl ⟨hend, hacc⟩)
  | move st st' hgo hmove _ ih =>
    -- The invariants of soundness do not mention the candidates.
    have hs' : Sound m p st' := sound_unfiltered.1
      ((sound_unfiltered.2 hs).move (candidatesOwned_unfiltered m) hk.mayBeIncorporated hmove)
    have hpos' : st'.pos ≤ p.word.length := by
      rw [← hs.placement] at hpos ⊢
      apply hmove.pos_le
      · rw [hs.placement]
        exact hk.within
      · intro sub length hsub
        exact (hk.incorporated _ _ sub length hsub).2
      · exact hpos
    have hy := ih hs' hpos'
    apply yields_of_move m.candidates hgo hmove ?_ hy
    rintro st₁ slot start id ho hid rfl
    exact hk.mem_mayFollow hs hpos ho hid hs' hy

/-- What the candidates by keys lead to, trying all inflexions leads to: they are some of the
inflexions of the paradigm. -/
theorem unfiltered_yields (hk : Keyed m p host) (h : m.Yields host 0 st w) (hs : Sound m p st) :
    m.unfiltered.Yields host 0 st w := by
  induction h using Yields.induction with
  | accept st hend hacc => exact yields_iff.2 (.inl ⟨hend, hacc⟩)
  | move st st' hgo hmove _ ih =>
    have hy := ih (hs.move hk.owned hk.mayBeIncorporated hmove)
    apply yields_of_move _ hgo hmove ?_ hy
    rintro st₁ slot start id ho hid rfl
    have hder := ho.derivations hs
    have hfollow := mayFollow_of_mem hk.owned hder hid
    apply Matcher.mem_mayFollow (m := m.unfiltered) hder (ho.sameChain.chain ▸ hk.proper hs) hfollow
    intro j i hj _
    exact Grammar.mem_inflexionsOf.2 ⟨rfl, i, hj⟩

end Keyed

end Matcher

namespace Analyzer

variable {config : ParserConfig} {a : Analyzer}

/-- The placements without edits are `Keyed`: they are in the word as it stands. -/
theorem keyed_of_mem_placements (d : GrammarDraft) (hbuild : build d.compile.grammar config = .ok a)
    (hkeys : d.compile.grammar.KeysInPlace) {host : List Char}
    (hplain : wildcard ∉ host ∨ ∀ id i, d.compile.grammar.inflexion? id = some i →
      wildcard ∉ i.anchoredKey ∧ wildcard ∉ i.slotKey)
    (haffixes : ∀ affixes, AffixIndex.build d.compile.grammar = .ok affixes →
      affixes.completes host = true)
    {p : Placement} (hp : p ∈ a.placements host 0) : a.matcher.Keyed p host := by
  have hgrammar := grammar_of_build hbuild
  obtain ⟨stems, affixes, incorporations, hstems, haffix, -, heq, hmatcher, -⟩ :=
    build_eq_ok hbuild
  obtain ⟨found, hfound, hplace⟩ := List.mem_filterMap.1 hp
  obtain ⟨hlookup, -⟩ := List.mem_filter.1 hfound
  obtain ⟨sub, hsub, rfl⟩ := Option.map_eq_some_iff.1 hplace
  rw [heq] at hlookup
  obtain ⟨hedits, hstop, hlength⟩ := StemIndex.exact_of_mem_lookup hstems hlookup
  -- Without edits the word of the placement is the host itself.
  have hword : (if found.edits.isEmpty then host else found.correctedWord host) = host := by
    rw [hedits]
    rfl
  exact {
    word := hword
    within := by
      show found.start + found.segment.length ≤ List.length _
      rw [hword, ← hlength]
      exact hstop
    known := ⟨sub, hsub, rfl⟩
    owned := candidatesOwned_of_build hbuild
    incorporated := by
      intro word pos sub length hsub
      rw [hgrammar]
      exact incorporated_of_build hbuild hsub
    candidate := by
      intro id i pos slot hi hpos hkey
      rw [hgrammar] at hi
      simp only [hword] at hpos hkey ⊢
      rw [hmatcher]
      exact AffixIndex.mem_candidates haffix (haffixes affixes haffix) hi hpos hkey
    wellFormed := by
      intro id i hi
      rw [hgrammar] at hi
      exact d.wellFormed_of_compile hi
    keys := by rw [hgrammar]; exact hkeys
    plain := by rw [hgrammar]; exact hplain }

/-- **Where the filter loses nothing.**  `FiltersNothing` holds of a grammar with `KeysInPlace`: the
candidates by keys find what `unfiltered` finds with all inflexions, unless a `wildcard` of the word
meets one of an `anchoredKey` or a `slotKey`, or a look-up is given up before it `completes`. -/
theorem filtersNothing_of_keysInPlace (d : GrammarDraft)
    (hbuild : build d.compile.grammar config = .ok a) (hkeys : d.compile.grammar.KeysInPlace)
    {host : List Char}
    (hplain : wildcard ∉ host ∨ ∀ id i, d.compile.grammar.inflexion? id = some i →
      wildcard ∉ i.anchoredKey ∧ wildcard ∉ i.slotKey)
    (haffixes : ∀ affixes, AffixIndex.build d.compile.grammar = .ok affixes →
      affixes.completes host = true) : a.FiltersNothing host := by
  obtain ⟨n, hpass⟩ := exists_pass a host 0
  obtain ⟨n', hpass'⟩ := exists_pass a.unfiltered host 0
  -- With a budget that is large enough, a pass finds what the placements yield.
  refine ⟨n + n', fun budget hexhausted hn w => ?_⟩
  rw [hpass budget hexhausted (by omega), hpass' budget hexhausted (by omega)]
  -- Both find the same placements; only what follows depends on the candidates.
  have hplacements : a.unfiltered.placements host 0 = a.placements host 0 := rfl
  rw [hplacements]
  constructor
  · rintro ⟨p, hp, hyields⟩
    have hk := keyed_of_mem_placements d hbuild hkeys hplain haffixes hp
    exact ⟨p, hp, hk.unfiltered_yields hyields (.start a.matcher p)⟩
  · rintro ⟨p, hp, hyields⟩
    have hk := keyed_of_mem_placements d hbuild hkeys hplain haffixes hp
    exact ⟨p, hp, hk.yields_of_unfiltered hyields (.start a.matcher p) (Nat.zero_le _)⟩

end Analyzer

/-! ## Examples -/

instance (i : Inflexion) : Decidable i.KeyInPlace :=
  inferInstanceAs (Decidable (_ → _))

/-- If no stem begins with a boundary, only the keys themselves matter. -/
theorem Grammar.keysInPlace_of_forall {g : Grammar}
    (hplace : ∀ e ∈ g.paradigms.arena.toList, ∀ i ∈ e.2.inflexions, i.KeyInPlace)
    (hstem : ∀ e ∈ g.subLexemes, e.2.startsWithBoundary = false) : g.KeysInPlace where
  inPlace := by
    intro id i hi
    obtain ⟨p, hp, hget⟩ := paradigm?_of_inflexion? hi
    exact hplace (id.paradigm, p) (Arena.mem_toList_iff.2 hp) i (List.mem_of_getElem? hget)
  atFront := by
    rintro ⟨id, sub, hsub, hfront⟩
    exact absurd ((hstem (id, sub) (mem_subLexemes_iff.2 hsub)).symm.trans hfront)
      Bool.false_ne_true

theorem Analyzer.filtersNothing_of_keysInPlace_sampleNouns :
    ∃ a, build (Grammar.ofDocument default sampleNouns).grammar default = .ok a ∧
      a.FiltersNothing "catsm".toList := by
  let g := (Grammar.ofDocument default sampleNouns).grammar
  have hkeys : g.KeysInPlace :=
    Grammar.keysInPlace_of_forall (by decide +kernel) (by decide +kernel)
  have haffixes : ((AffixIndex.build g).toOption.all fun affixes =>
      affixes.completes "catsm".toList) = true := by
    decide +kernel
  have hok : ((build g default).toOption.any fun _ => true) = true := by decide +kernel
  obtain ⟨a, hbuild, -⟩ := exists_eq_ok_of_any hok
  refine ⟨a, hbuild, ?_⟩
  apply filtersNothing_of_keysInPlace ((GrammarDraft.start default).add sampleNouns) hbuild hkeys
  · exact .inl (by decide)
  · intro affixes h
    have h : AffixIndex.build g = .ok affixes := h
    simpa [h, Except.toOption] using haffixes

/-- Whether all candidates find something where the candidates by keys find nothing, both within
some steps. -/
def Analyzer.loses (a : Analyzer) (word : List Char) (steps : Nat) : Bool :=
  let filtered := a.pass word 0 (.fresh steps)
  let all := a.unfiltered.pass word 0 (.fresh steps)
  filtered.1.isEmpty && !filtered.2.exhausted && !all.1.isEmpty && !all.2.exhausted

theorem Analyzer.not_filtersNothing_of_loses {a : Analyzer} {word : List Char} {steps : Nat}
    (h : a.loses word steps = true) : ¬ a.FiltersNothing word := by
  simp only [loses, Bool.and_eq_true, List.isEmpty_iff, Bool.not_eq_true',
    List.isEmpty_eq_false_iff] at h
  obtain ⟨⟨⟨hnil, hspare⟩, hne⟩, hspare'⟩ := h
  -- Both passes are cut to the same budget, with enough to spare.
  rcases hpass : a.pass word 0 (.fresh steps) with ⟨found, left, exhausted⟩
  rcases hall : a.unfiltered.pass word 0 (.fresh steps) with ⟨found', left', exhausted'⟩
  rw [hpass] at hnil hspare
  rw [hall] at hne hspare'
  obtain rfl : exhausted = false := hspare
  obtain rfl : exhausted' = false := hspare'
  obtain rfl : found = [] := hnil
  obtain ⟨w, hw⟩ := List.exists_mem_of_ne_nil found' hne
  rintro ⟨n, hn⟩
  -- With a larger budget neither pass changes.
  have hsame := hn (.fresh (steps + n)) rfl (Nat.le_add_left ..) w
  rw [(searches_pass a word 0).add hpass n, (searches_pass a.unfiltered word 0).add hall n] at hsame
  exact absurd (hsame.2 hw) List.not_mem_nil

/-- Nouns with a plural behind the second part of the stem. -/
def sampleHalves : GrammarDocument :=
  { GrammarDocument.empty with
    paradigms := [⟨"Noun", [.ofFlex "..x" "pl" "PL" []], []⟩]
    lexemes := [⟨"ab", "ab.cd.", ["Noun"], "N", "cut", [], none, false, none⟩] }

/-- Nouns whose second prefix is of a kind that may precede its stem. -/
def samplePrefixes : GrammarDocument :=
  { GrammarDocument.empty with
    paradigms := [
      ⟨"Noun", [.ofFlex "<.>x<.>y<.>." "def" "" ["Double"]], []⟩,
      ⟨"Double", [.ofFlex "..<.>.<.>" "" "" ["Self"]], []⟩,
      ⟨"Self", [.ofFlex "[self].xy" "pl" "" []], []⟩]
    lexemes := [⟨"st", ".st.", ["Noun"], "N", "stone", [], none, false, none⟩] }

/-- Nouns with a suffix that is written like a character that is not known. -/
def sampleSigns : GrammarDocument :=
  { GrammarDocument.empty with
    paradigms := [
      ⟨"Noun", [.ofFlex ".a<.>b<.>" "def" "" ["Double"]], []⟩,
      ⟨"Double", [.ofFlex ".u.<.>" "" "" ["Sign"]], []⟩,
      ⟨"Sign", [.ofFlex ".•" "pl" "" []], []⟩]
    lexemes := [⟨"st", "st.", ["Noun"], "N", "stone", [], none, false, none⟩] }

/-- What is lost without the conditions: behind a key that passes over a boundary where the stem
goes on, behind one that does so at the front of the stem, and where wildcards of word and key meet.
-/
theorem Analyzer.not_filtersNothing_samples :
    (∃ a, build (Grammar.ofDocument default sampleHalves).grammar default = .ok a ∧
      ¬ a.FiltersNothing "abcdx".toList) ∧
    (∃ a, build (Grammar.ofDocument default samplePrefixes).grammar default = .ok a ∧
      ¬ a.FiltersNothing "xyxyst".toList) ∧
    (∃ a, build (Grammar.ofDocument default sampleSigns).grammar default = .ok a ∧
      ¬ a.FiltersNothing "stau•b".toList) := by
  have hloses {g : Grammar} {word : List Char} (steps : Nat)
      (h : ((build g default).toOption.any fun a => a.loses word steps) = true) :
      ∃ a, build g default = .ok a ∧ ¬ a.FiltersNothing word := by
    obtain ⟨a, hbuild, hloses⟩ := exists_eq_ok_of_any h
    exact ⟨a, hbuild, not_filtersNothing_of_loses hloses⟩
  refine ⟨hloses 1000 ?_, hloses 1000 ?_, hloses 1000 ?_⟩
  · decide +kernel
  · decide +kernel
  · decide +kernel

end Morphology
