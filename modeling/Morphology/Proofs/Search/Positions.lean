import Morphology.Proofs.Search.Budget
import Morphology.Proofs.Search.Soundness

/-!
# Inflexions at the end of a word

An inflexion says whether it ends a word.  The search looks at this only where the last inflexion
continues, and lets it pass if it does *not* end a word.  What keeps a chain in order is the
continuation itself: an inflexion is followed by another exactly if it has one, unless the stem is
used up before its continuation comes.

## Main definitions

* `Matcher.ContinuesAhead` — no continuation of the last level is passed
* `Matcher.StopsShort` — a level that is left at a mark in front of its continuation
* `Inflexion.FlagAgrees` — an inflexion continues if it does not end a word, and only then
* `Grammar.PositionsKept` — the inflexions of a chain stand where they may

## Main statements

* `Matcher.ContinuesAhead.move` — a move from the last continuation opens a level
* `Matcher.stopsShort_of_continues` — how a state can be accepted whose last inflexion continues
* `Analyzer.positions_of_accepted` — the positions of inflexions in every state that is accepted
-/

namespace Morphology

namespace Matcher

variable {m : Matcher} {st st' : SearchState}

/-! ## Continuations of the last level -/

/-- The continuations of the last level are still ahead. -/
def ContinuesAhead (m : Matcher) (st : SearchState) : Prop :=
  ∀ (n : Nat) (l : Level) (i : Inflexion), st.levels.length = n + 1 → st.levels[n]? = some l →
    m.inflexionOf? l = some i → ∀ part ∈ i.parts.take l.part, part.role ≠ .continuation

namespace ContinuesAhead

theorem start (m : Matcher) (p : Placement) : m.ContinuesAhead (.start p) := by
  intro n l i hlength
  cases hlength

theorem openLevel (m : Matcher) (st : SearchState) (id : InflexionId) :
    m.ContinuesAhead (m.openLevel st id) := by
  intro n l i hlength hl _ part hpart
  obtain rfl : st.levels.length = n := by simpa using hlength
  obtain rfl : Level.start id = l := by simpa using hl
  exact absurd hpart List.not_mem_nil

/-- A level may move on if it is not the last, or passes no continuation: `ContinuesAhead` stays
true. -/
theorem modifyLevel (h : m.ContinuesAhead st) {level : Nat} {l : Level} {i : Inflexion}
    (hl : st.levels[level]? = some l) (hi : m.inflexionOf? l = some i) {f : Level → Level}
    (hsame : (f l).link.inflexion = l.link.inflexion)
    (hf : level + 1 < st.levels.length ∨
      ∀ part ∈ i.parts.take (f l).part, part ∈ i.parts.take l.part ∨ part.role ≠ .continuation) :
    m.ContinuesAhead (st.modifyLevel level f) := by
  intro n l' i' hlength hl' hi' part hpart
  rw [SearchState.modifyLevel_levels, List.length_modify] at hlength
  obtain ⟨l₀, hl₀, rfl⟩ := SearchState.getElem?_modifyLevel.1 hl'
  by_cases hlevel : level = n
  · -- At the level itself, the parts passed are those before and what `f` passes.
    subst hlevel
    obtain rfl : l = l₀ := Option.some.inj (hl.symm.trans hl₀)
    rw [if_pos rfl] at hi' hpart
    obtain rfl : i = i' := by
      have hsame : m.inflexionOf? (f l) = m.inflexionOf? l := by
        rw [inflexionOf?, hsame, inflexionOf?]
      exact Option.some.inj (hi.symm.trans (hsame.symm.trans hi'))
    rcases hf with hbelow | hf
    · omega
    · rcases hf part hpart with hold | hnew
      · exact h level l i hlength hl hi part hold
      · exact hnew
  · -- The other levels are as they were.
    rw [if_neg hlevel] at hi' hpart
    exact h n l₀ i' hlength hl₀ hi' part hpart

/-- A part that is no continuation may be passed. -/
theorem pass (h : m.ContinuesAhead st) {level : Nat} {l : Level} {i : Inflexion}
    {part : FlexPart} (hat : AtPart m st level l i part) (hrole : part.role ≠ .continuation)
    {f : Level → Level} (hsame : (f l).link.inflexion = l.link.inflexion)
    (hnext : (f l).part = l.part + 1) : m.ContinuesAhead (st.modifyLevel level f) := by
  refine h.modifyLevel hat.level hat.inflexion hsame (.inr fun part' hpart' => ?_)
  have htake : i.parts.take (l.part + 1) = i.parts.take l.part ++ [part] := by
    rw [List.take_add_one, hat.part]
    rfl
  rw [hnext, htake] at hpart'
  rcases List.mem_append.1 hpart' with hold | hnew
  · exact .inl hold
  · exact .inr (List.mem_singleton.1 hnew ▸ hrole)

/-- A `Move` passes a continuation of the last level only by opening a level. -/
theorem move (h : m.ContinuesAhead st) (hmove : Move m st st') : m.ContinuesAhead st' := by
  cases hmove with
  | stemChar _ _ _ hread =>
    obtain ⟨pos, rfl⟩ := eq_of_mem_stepStemChar hread
    exact h
  | firstChar _ _ _ _ hread =>
    obtain ⟨pos, rfl⟩ := eq_of_mem_stepStemChar hread
    exact h
  | openFront => exact openLevel m _ _
  | passFront => exact h
  | openStem => exact openLevel m _ _
  | enterFirst => exact h
  | leaveLevel => exact h
  | @handOver _ _ _ part hat hrole _ =>
    -- What hands over to the stem is a boundary.
    have hnot : part.role ≠ .continuation := fun heq => by simp [heq, Role.isBoundary] at hrole
    exact h.pass hat hnot rfl rfl
  | @passMark _ _ _ part hat hrole =>
    have hnot : part.role ≠ .continuation := by
      intro heq
      rcases hrole with ⟨hrole, -⟩ | hrole
      · simp [heq, Role.isBoundary] at hrole
      · exact absurd (heq.symm.trans hrole) (by decide)
    exact h.pass hat hnot rfl rfl
  -- The level has one below it, so its continuation may be passed.
  | enterNext hat hrole hbelow =>
    exact h.modifyLevel hat.level hat.inflexion rfl (.inl hbelow)
  | openNext => exact openLevel m _ _
  | incorporate hat hrole _ =>
    have hnot : Role.incorporation ≠ .continuation := by decide
    exact h.pass hat (hrole ▸ hnot) rfl rfl
  | @endPart _ _ _ part hat hrole _ =>
    have hnot : part.role ≠ .continuation := fun heq => by simp [heq, Role.isMarker] at hrole
    exact h.pass hat hnot rfl rfl
  | readChar hat _ _ _ =>
    exact h.modifyLevel hat.level hat.inflexion rfl (.inr fun _ hpart => .inl hpart)

end ContinuesAhead

/-! ## The end of a search -/

/-- A level is left at a mark in front of its continuation: the stem, which does not end with a
boundary, is used up, and the inflexion does not end a word. -/
structure StopsShort (st : SearchState) (l : Level) (i : Inflexion) : Prop where
  position : i.position = .nonFinal
  mark : ∃ part, i.parts[l.part]? = some part ∧
    (part.role.isBoundary = true ∨ part.role = .startWithSelf)
  stemDone : st.placement.pattern.length ≤ st.stemPos
  noBoundary : st.placement.endsWithBoundary = false

/-- Where a finished level stands at a part, that needs no more characters. -/
theorem done_of_isFinished {l : Level} {i : Inflexion} {part : FlexPart}
    (hi : m.inflexionOf? l = some i) (hpart : i.parts[l.part]? = some part)
    (h : m.isFinished l = true) :
    mayRemain part = true ∨ part.role ≠ .incorporation ∧ part.surface.length ≤ l.consumed := by
  have hdrop : i.parts.drop l.part = part :: i.parts.drop (l.part + 1) := by
    obtain ⟨hlt, hget⟩ := List.getElem?_eq_some_iff.1 hpart
    rw [← hget, List.cons_getElem_drop_succ]
  simp only [isFinished, hi, hdrop, Bool.and_eq_true] at h
  simpa using h.1

/-- If the last inflexion of an accepted state continues, its level `StopsShort`. -/
theorem stopsShort_of_continues (h : m.ContinuesAhead st) (hend : m.canContinue st = false)
    (hcomplete : m.isComplete st = true) {l : Level} (hl : st.levels.getLast? = some l)
    {i : Inflexion} (hi : m.inflexionOf? l = some i) (hcont : i.continues = true) :
    StopsShort st l i := by
  simp only [isComplete, Bool.and_eq_true, hl, Option.bind_some, hi, Option.any_some, mayEnd, hcont,
    Bool.not_true, Bool.false_or, decide_eq_true_eq, List.all_eq_true] at hcomplete
  obtain ⟨⟨⟨hword, -⟩, hposition⟩, hfinished⟩ := hcomplete
  have hfinished := hfinished l (List.mem_of_getLast? hl)
  cases hpart : i.parts[l.part]? with
  | none =>
    -- All parts are passed, and with them the continuation.
    -- The continuation is among the parts, and the last level has passed none.
    obtain ⟨part, hmem, hrole⟩ := List.any_eq_true.1 hcont
    obtain ⟨n, hn⟩ : ∃ n, st.levels.length = n + 1 :=
      Nat.exists_eq_succ_of_ne_zero fun hzero => by simp [List.length_eq_zero_iff.1 hzero] at hl
    rw [List.getLast?_eq_getElem?, hn, Nat.add_sub_cancel] at hl
    have hall : i.parts.take l.part = i.parts :=
      List.take_of_length_le (List.getElem?_eq_none_iff.1 hpart)
    have hahead := h n l i hn hl hi
    rw [hall] at hahead
    exact absurd (by simpa using hrole) (hahead part hmem)
  | some part =>
    have hdone := done_of_isFinished hi hpart hfinished
    simp only [canContinue, hword, if_true, hl, partOf?, hi, Option.bind_some, hpart] at hend
    -- At a boundary or a sign the search ends only if nothing of the stem is left.
    have hshort (hmark : part.role.isBoundary = true ∨ part.role = .startWithSelf)
        (hend : (decide (st.stemPos < st.placement.pattern.length) ||
          st.placement.endsWithBoundary) = false) : StopsShort st l i := by
      rw [Bool.or_eq_false_iff, decide_eq_false_iff_not, Nat.not_lt] at hend
      exact ⟨hposition, ⟨part, hpart, hmark⟩, hend.1, hend.2⟩
    -- Only at a boundary or a sign can the search end; elsewhere something is left to be done.
    cases hrole : part.role <;> simp only [hrole] at hend
    case stem => exact hshort (.inl (by rw [hrole]; rfl)) hend
    case forcedStem => exact hshort (.inl (by rw [hrole]; rfl)) hend
    case startWithSelf => exact hshort (.inr hrole) hend
    case continuation => cases hend
    case incorporation => cases hend
    all_goals
      rw [decide_eq_false_iff_not] at hend
      rcases hdone with hempty | ⟨-, hread⟩
      · refine absurd ?_ hend
        have hsurface : part.surface = [] := by simpa [mayRemain, hrole] using hempty
        simp [hsurface]
      · exact absurd hread hend

end Matcher

/-! ## Positions in a chain -/

/-- An inflexion that does not end a word continues, and one that ends it does not. -/
structure Inflexion.FlagAgrees (i : Inflexion) : Prop where
  nonFinal : i.position = .nonFinal → i.continues = true
  final : i.position = .final → i.continues = false

theorem Inflexion.flagAgrees_iff {i : Inflexion} : i.FlagAgrees ↔
    (i.position = .nonFinal → i.continues = true) ∧ (i.position = .final → i.continues = false) :=
  ⟨fun h => ⟨h.nonFinal, h.final⟩, fun h => ⟨h.1, h.2⟩⟩

instance (i : Inflexion) : Decidable i.FlagAgrees :=
  decidable_of_iff' _ Inflexion.flagAgrees_iff

/-- The last inflexion of a chain may end a word, and no other has to. -/
structure Grammar.PositionsKept (g : Grammar) (chain : List InflexionId) : Prop where
  last : ∀ id ∈ chain.getLast?, ∃ i, g.inflexion? id = some i ∧ i.continues = false ∧
    i.position ≠ .nonFinal
  before : ∀ id ∈ chain.dropLast, ∃ i, g.inflexion? id = some i ∧ i.position ≠ .final

namespace Analyzer

variable {g : Grammar} {config : ParserConfig} {a : Analyzer}

/-- The chain of an accepted state is `Licensed`. -/
theorem licensed_of_accept (hbuild : build g config = .ok a) {start : Placement} {st : SearchState}
    (hreach : a.matcher.Reaches (.start start) st) {host : List Char} {maxEdits : Nat}
    {w : Wordform} (hacc : a.matcher.accept? host maxEdits st = some w) :
    st.placement = start ∧ ∃ sub, g.subLexeme? start.sub = some sub ∧
      g.Licensed a.matcher.limits sub.paradigm st.chain := by
  have hgrammar := grammar_of_build hbuild
  have hown := candidatesOwned_of_build hbuild
  have hinc := mayBeIncorporated_of_build hbuild
  -- Without inflexions nothing is merged, and nothing accepted.
  obtain ⟨-, -, i, hi, -⟩ := Matcher.of_accept?_eq_some hacc
  have hne : st.chain ≠ [] := by
    intro hnil
    have hlevels : st.levels = [] := by simpa [SearchState.chain] using hnil
    simp [hlevels, Grammar.mergeChain?] at hi
  have hlicensed := Matcher.exists_licensed_of_reaches hown hinc hreach hne
  rw [hgrammar] at hlicensed
  exact ⟨(Matcher.Sound.of_reaches hown hinc hreach).placement, hlicensed⟩

/-- **The positions of inflexions.**  In every state that is accepted, each inflexion but the last
continues, and the last one does not unless its level `StopsShort`. So `PositionsKept` holds of the
chain if the positions agree with the continuations (`FlagAgrees`) and the stem ends with a
boundary. -/
theorem positions_of_accepted (hbuild : build g config = .ok a) {start : Placement}
    {st : SearchState} (hreach : a.matcher.Reaches (.start start) st)
    (hend : a.matcher.canContinue st = false) {host : List Char} {maxEdits : Nat} {w : Wordform}
    (hacc : a.matcher.accept? host maxEdits st = some w) :
    (∀ id ∈ st.chain.dropLast, ∃ i, g.inflexion? id = some i ∧ i.continues = true) ∧
    (∃ l i, st.levels.getLast? = some l ∧ g.inflexion? l.link.inflexion = some i ∧
      (i.continues = true → Matcher.StopsShort st l i)) ∧
    ((∀ id ∈ st.chain, ∀ i, g.inflexion? id = some i → i.FlagAgrees) →
      start.endsWithBoundary = true → g.PositionsKept st.chain) := by
  have hgrammar := grammar_of_build hbuild
  -- The levels of the state are a licensed chain, and none but the last has passed its
  -- continuation.
  obtain ⟨hplacement, sub, -, hlicensed⟩ := licensed_of_accept hbuild hreach hacc
  have hahead : a.matcher.ContinuesAhead st :=
    hreach.keeps (fun _ _ h hmove => h.move hmove) (.start a.matcher start)
  obtain ⟨hcomplete, -⟩ := Matcher.of_accept?_eq_some hacc
  have hne : st.levels ≠ [] := fun hnil => hlicensed.ne_nil (by rw [SearchState.chain, hnil]; rfl)
  obtain ⟨l, hl⟩ : ∃ l, st.levels.getLast? = some l := ⟨_, List.getLast?_eq_some_getLast hne⟩
  have hid : l.link.inflexion ∈ st.chain := List.mem_map_of_mem (List.mem_of_getLast? hl)
  obtain ⟨i, hi, -⟩ := hlicensed.proper _ hid
  have hshort : i.continues = true → Matcher.StopsShort st l i :=
    Matcher.stopsShort_of_continues hahead hend hcomplete hl
      (by rw [Matcher.inflexionOf?, hgrammar, hi])
  refine ⟨hlicensed.continued, ⟨l, i, hl, hi, hshort⟩, fun hflags hboundary => ⟨?_, ?_⟩⟩
  · -- The stem ends with a boundary, so that the last level cannot have stopped short in front of
    -- one.
    intro id hlast
    obtain rfl : l.link.inflexion = id := by
      rw [Option.mem_def, SearchState.chain, List.getLast?_map, hl] at hlast
      exact Option.some.inj hlast
    have hstops : i.continues = false := by
      by_contra hcont
      have hnone := (hshort (by simpa using hcont)).noBoundary
      rw [hplacement, hboundary] at hnone
      cases hnone
    refine ⟨i, hi, hstops, fun hposition => ?_⟩
    rw [(hflags _ hid i hi).nonFinal hposition] at hstops
    cases hstops
  · -- All but the last continue, which an inflexion that ends words does not.
    intro id hbefore
    obtain ⟨j, hj, hcont⟩ := hlicensed.continued id hbefore
    refine ⟨j, hj, fun hposition => ?_⟩
    rw [(hflags id (List.dropLast_subset _ hbefore) j hj).final hposition] at hcont
    cases hcont

/-- Nouns whose plural does not end a word, with a case that does, and nothing widened. -/
def samplePlurals : GrammarDraft :=
  (GrammarDraft.start { (default : GrammarConfig) with widenedParadigms := some 0 }).add
    { GrammarDocument.empty with
      paradigms := [
        ⟨"Noun", [⟨".s<.>", "pl", "PL", none, [], none, .nonFinal, ["Case"], false, true⟩], []⟩,
        ⟨"Case", [⟨".m", "acc", "ACC", none, [], none, .final, [], false, true⟩], []⟩]
      lexemes := [⟨"cat", "cat.", ["Noun"], "N", "cat", [], none, false, none⟩] }

theorem positions_of_accepted_samplePlurals :
    ∃ a st, build samplePlurals.compile.grammar default = .ok a ∧
      a.matcher.Reaches (.start (sampleNounAt "catsm".toList)) st ∧ st.chain.length = 2 ∧
      samplePlurals.compile.grammar.PositionsKept st.chain := by
  have hfound : ((build samplePlurals.compile.grammar default).toOption.any fun a =>
      (a.matcher.visit 50 [.start (sampleNounAt "catsm".toList)]).1.any fun st =>
        !a.matcher.canContinue st && (a.matcher.accept? "catsm".toList 0 st).isSome &&
          decide (st.chain.length = 2 ∧ ∀ id ∈ st.chain,
            ∀ i ∈ samplePlurals.compile.grammar.inflexion? id, i.FlagAgrees)) = true := by
    decide +kernel
  obtain ⟨a, hbuild, hvisited⟩ := exists_eq_ok_of_any hfound
  obtain ⟨st, hst, htest⟩ := List.any_eq_true.1 hvisited
  simp only [Bool.and_eq_true, Bool.not_eq_true', decide_eq_true_eq,
    Option.isSome_iff_exists] at htest
  obtain ⟨⟨hend, w, hacc⟩, hlength, hflags⟩ := htest
  obtain ⟨first, hfirst, hreach⟩ := Matcher.exists_reaches_of_mem_visit hst
  obtain rfl := List.mem_singleton.1 hfirst
  exact ⟨a, st, hbuild, hreach, hlength,
    (positions_of_accepted hbuild hreach hend hacc).2.2 hflags (by decide)⟩

/-- Nouns whose plural does not end a word but has no continuation. -/
def sampleBrokenPlurals : GrammarDraft :=
  (GrammarDraft.start default).add { GrammarDocument.empty with
    paradigms := [
      ⟨"Noun", [⟨".s", "pl", "PL", none, [], none, .nonFinal, [], false, true⟩], []⟩]
    lexemes := [⟨"cat", "cat.", ["Noun"], "N", "cat", [], none, false, none⟩] }

/-- A word may end with an inflexion that does not end words. -/
theorem not_positionsKept_of_accepted :
    ¬ ∀ (d : GrammarDraft) (config : ParserConfig) (a : Analyzer) (start : Placement)
      (st : SearchState) (host : List Char) (maxEdits : Nat) (w : Wordform),
      build d.compile.grammar config = .ok a → a.matcher.Reaches (.start start) st →
        a.matcher.canContinue st = false → a.matcher.accept? host maxEdits st = some w →
          d.compile.grammar.PositionsKept st.chain := by
  intro h
  have hfound : ((build sampleBrokenPlurals.compile.grammar default).toOption.any fun a =>
      (a.matcher.visit 50 [.start (sampleNounAt "cats".toList)]).1.any fun st =>
        !a.matcher.canContinue st && (a.matcher.accept? "cats".toList 0 st).isSome &&
          decide (∃ id ∈ st.chain.getLast?, ∃ i ∈ sampleBrokenPlurals.compile.grammar.inflexion? id,
            i.position = .nonFinal)) = true := by
    decide +kernel
  obtain ⟨a, hbuild, hvisited⟩ := exists_eq_ok_of_any hfound
  obtain ⟨st, hst, htest⟩ := List.any_eq_true.1 hvisited
  simp only [Bool.and_eq_true, Bool.not_eq_true', decide_eq_true_eq,
    Option.isSome_iff_exists] at htest
  obtain ⟨⟨hend, w, hacc⟩, id, hid, i, hi, hposition⟩ := htest
  obtain ⟨first, hfirst, hreach⟩ := Matcher.exists_reaches_of_mem_visit hst
  obtain rfl := List.mem_singleton.1 hfirst
  obtain ⟨j, hj, -, hnot⟩ := (h _ _ _ _ _ _ _ _ hbuild hreach hend hacc).last id hid
  obtain rfl : i = j := Option.some.inj (hi.symm.trans hj)
  exact hnot hposition

end Analyzer

end Morphology
