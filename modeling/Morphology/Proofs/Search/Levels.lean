import Morphology.Proofs.Search.Chains
import Morphology.Proofs.Search.Moves

/-!
# Levels of a state

The levels of a state stand for a chain of inflexions.  A move matches more of them or adds one at
the end.

## Main definitions

* `SearchState.SameChain` — states that differ only in how much of their chain is matched

## Main statements

* `Matcher.Move.sameChain_or_opens` — a move keeps the chain or adds an inflexion that may follow
* `Matcher.step_of_stemChar` and the like — the only moves from a character of the stem
* `Matcher.step_of_surface` and the like — the only moves from a part of a level
-/

namespace Morphology

/-! ## What moves do to the chain -/

namespace SearchState

variable {st st' st'' : SearchState}

/-- The states have the same placement and the same inflexions. -/
structure SameChain (st st' : SearchState) : Prop where
  placement : st'.placement = st.placement
  chain : st'.chain = st.chain
  derivations : st'.derivations = st.derivations

theorem SameChain.trans (h : st.SameChain st') (h' : st'.SameChain st'') : st.SameChain st'' :=
  ⟨h'.placement.trans h.placement, h'.chain.trans h.chain, h'.derivations.trans h.derivations⟩

/-- What a change of a level keeps of every level is kept of all of them. -/
theorem map_modifyLevel {α : Type} (st : SearchState) (level : Nat) {f : Level → Level}
    {g : Level → α} (hf : ∀ l, g (f l) = g l) :
    (st.modifyLevel level f).levels.map g = st.levels.map g := by
  have hmap (levels : List Level) (n : Nat) : (levels.modify n f).map g = levels.map g := by
    induction levels generalizing n with
    | nil => simp
    | cons l levels ih =>
      cases n with
      | zero => simp [List.modify_cons, hf]
      | succ n => simp [ih]
  exact hmap st.levels level

theorem getElem?_modifyLevel {level n : Nat} {f : Level → Level} {l' : Level} :
    (st.modifyLevel level f).levels[n]? = some l' ↔
      ∃ l, st.levels[n]? = some l ∧ (if level = n then f l else l) = l' := by
  rw [modifyLevel_levels, List.getElem?_modify]
  exact Option.map_eq_some_iff

theorem chain_modifyLevel (st : SearchState) (level : Nat) {f : Level → Level}
    (hf : ∀ l, (f l).link.inflexion = l.link.inflexion) :
    (st.modifyLevel level f).chain = st.chain :=
  st.map_modifyLevel level hf

theorem sameChain_modifyLevel (st : SearchState) (level : Nat) {f : Level → Level}
    (hf : ∀ l, (f l).link.inflexion = l.link.inflexion) : st.SameChain (st.modifyLevel level f) :=
  ⟨rfl, st.chain_modifyLevel level hf, rfl⟩

theorem sameChain_nextPart (st : SearchState) (level : Nat) :
    st.SameChain (st.modifyLevel level (·.nextPart)) :=
  st.sameChain_modifyLevel level fun _ => rfl

end SearchState

open SearchState (SameChain)

namespace Matcher

variable {m : Matcher} {st st' : SearchState}

/-- Reading a character of the stem moves on in the stem, and perhaps in the word. -/
theorem eq_of_mem_stepStemChar {c : Char} (h : st' ∈ stepStemChar st c) :
    ∃ pos, st' = { st with stemPos := st.stemPos + 1, pos := pos } := by
  unfold stepStemChar at h
  split at h
  · exact ⟨st.pos, List.mem_singleton.1 h⟩
  · -- Both ways of reading, inside the stretch that is known to agree and outside, look the same.
    simp only [List.mem_ite_nil_right, List.mem_singleton] at h
    exact ⟨st.pos + 1, h.2⟩

theorem sameChain_of_mem_stepStemChar {c : Char} (h : st' ∈ stepStemChar st c) :
    st.SameChain st' := by
  obtain ⟨pos, rfl⟩ := eq_of_mem_stepStemChar h
  exact ⟨rfl, rfl, rfl⟩

@[simp] theorem openLevel_placement (m : Matcher) (st : SearchState) (id : InflexionId) :
    (m.openLevel st id).placement = st.placement := rfl

@[simp] theorem openLevel_levels (m : Matcher) (st : SearchState) (id : InflexionId) :
    (m.openLevel st id).levels = st.levels ++ [.start id] := rfl

theorem openLevel_chain (m : Matcher) (st : SearchState) (id : InflexionId) :
    (m.openLevel st id).chain = st.chain ++ [id] := by
  simp [SearchState.chain, Level.start]

theorem openLevel_derivations (hder : st.derivations = m.grammar.derivationsOf st.chain)
    (id : InflexionId) :
    (m.openLevel st id).derivations = m.grammar.derivationsOf (m.openLevel st id).chain := by
  rw [openLevel_chain, Grammar.derivationsOf, List.map_append, List.filter_append]
  change st.derivations ++ _ = m.grammar.derivationsOf st.chain ++ _
  rw [hder]
  congr 1
  by_cases hd : m.grammar.isDerivational id.paradigm = true
  · have hd' : (m.grammar.paradigm? id.paradigm).any (·.isDerivational) = true := hd
    simp [hd, hd']
  · have hd' : ¬ (m.grammar.paradigm? id.paradigm).any (·.isDerivational) = true := hd
    simp [hd, hd']

/-- A continuation of the last level opens the paradigms that it leads to. -/
theorem isOpen_of_continuation {level : Nat} {l : Level} {i : Inflexion} {part : FlexPart}
    {h : Handle} {start : Handle} (hat : AtPart m st level l i part)
    (hrole : part.role = .continuation) (hlast : st.levels.length = level + 1)
    (hh : h ∈ i.subsequent) : m.grammar.IsOpen start st.chain h := by
  have hget : st.chain.getLast? = some l.link.inflexion := by
    rw [SearchState.chain, List.getLast?_map, List.getLast?_eq_getElem?, hlast,
      Nat.add_sub_cancel, hat.level]
    rfl
  have hcont : i.continues = true := by
    refine List.any_eq_true.2 ⟨part, List.mem_of_getElem? hat.part, ?_⟩
    simpa using hrole
  rw [Grammar.IsOpen, hget]
  exact ⟨i, hat.inflexion, hcont, hh⟩

/-- A `Move` keeps the chain, or adds to it an inflexion that may follow in an open paradigm. -/
theorem Move.sameChain_or_opens (hmove : Move m st st') :
    st.SameChain st' ∨ ∃ st₁ slot h id, st.SameChain st₁ ∧ st₁.levels.length = st.levels.length ∧
      (∀ sub, m.grammar.subLexeme? st.placement.sub = some sub →
        m.grammar.IsOpen sub.paradigm st.chain h) ∧
      id ∈ m.mayFollow st₁ slot h ∧ st' = m.openLevel st₁ id := by
  -- In the stem, the paradigm that is open is that of the stem.
  have hfirst {sub : SubLexeme} {c : Char} (hat : AtStem m st sub c) (hnil : st.levels = []) :
      ∀ sub', m.grammar.subLexeme? st.placement.sub = some sub' →
        m.grammar.IsOpen sub'.paradigm st.chain sub.paradigm := by
    intro sub' hsub'
    obtain rfl : sub = sub' := Option.some.inj (hat.sub.symm.trans hsub')
    simp [Grammar.IsOpen, SearchState.chain, hnil]
  cases hmove with
  | stemChar _ _ _ hread => exact .inl (sameChain_of_mem_stepStemChar hread)
  | firstChar _ _ _ _ hread =>
    have hmark : st.SameChain st.markTried := ⟨rfl, rfl, rfl⟩
    exact .inl (hmark.trans (sameChain_of_mem_stepStemChar hread))
  -- An inflexion in front of the stem, or at its first boundary, is the first of the chain.
  | openFront hat _ hfront hid _ _ =>
    exact .inr ⟨st.markTried, true, _, _, ⟨rfl, rfl, rfl⟩, rfl, hfirst hat hfront.2.1, hid, rfl⟩
  | passFront _ _ _ _ => exact .inl ⟨rfl, rfl, rfl⟩
  | openStem hat hnil hid =>
    exact .inr ⟨{ st with stemPos := st.stemPos + 1 }, _, _, _, ⟨rfl, rfl, rfl⟩, rfl,
      hfirst hat hnil, hid, rfl⟩
  | enterFirst _ _ => exact .inl ⟨rfl, rfl, rfl⟩
  | leaveLevel _ _ _ _ => exact .inl ⟨rfl, rfl, rfl⟩
  | @handOver level =>
    have hnext := st.sameChain_nextPart level
    exact .inl ⟨hnext.placement, hnext.chain, hnext.derivations⟩
  | passMark _ _ => exact .inl (st.sameChain_nextPart _)
  | @enterNext level =>
    have hnext := st.sameChain_nextPart level
    exact .inl ⟨hnext.placement, hnext.chain, hnext.derivations⟩
  -- Behind a continuation, the paradigms that the last inflexion leads to are open.
  | openNext hat hrole hlast hh hid =>
    refine .inr ⟨_, false, _, _, st.sameChain_nextPart _, ?_, fun sub _ => ?_, hid, rfl⟩
    · simp
    · exact isOpen_of_continuation hat hrole hlast hh
  -- To incorporate a stem changes a level, but not its inflexion.
  | @incorporate level l i part sub =>
    have hinc := st.sameChain_modifyLevel level (f := (·.incorporate sub)) fun _ => rfl
    exact .inl ⟨hinc.placement, hinc.chain, hinc.derivations⟩
  | endPart _ _ _ => exact .inl (st.sameChain_nextPart _)
  | @readChar level =>
    have hread := st.sameChain_modifyLevel level
      (f := fun l => { l with consumed := l.consumed + 1 }) fun _ => rfl
    exact .inl ⟨hread.placement, hread.chain, hread.derivations⟩

/-- A character is read only where the word has one. -/
theorem pos_lt_of_wordChar? {f : Char → Bool} (h : st.wordChar?.any f = true) :
    st.pos < st.placement.word.length := by
  obtain ⟨d, hd, -⟩ := Option.any_eq_true _ _ |>.1 h
  exact (List.getElem?_eq_some_iff.1 hd).1

/-! ## Moves from the stem -/

section Stem

variable {sub : SubLexeme} {c : Char}

theorem exists_atStem_of_mem_step (hcurrent : st.current = none) (hst' : st' ∈ m.step st) :
    ∃ sub c, AtStem m st sub c := by
  rw [step, hcurrent] at hst'
  cases hc : st.stemChar? with
  | none => simp [stepStem, hc] at hst'
  | some c =>
    cases hsub : m.grammar.subLexeme? st.placement.sub with
    | none => simp [stepStem, hc, hsub] at hst'
    | some sub => exact ⟨sub, c, hcurrent, hc, hsub⟩

private theorem step_eq_stepStem (hat : AtStem m st sub c) : m.step st = m.stepStem st := by
  rw [step, hat.current]

theorem step_of_stemChar (hat : AtStem m st sub c) (hc : c ≠ boundary) (hfront : ¬ st.atFront) :
    m.step st = stepStemChar st c := by
  have hfront' : ¬ (decide (st.stemPos = 0) && st.levels.isEmpty && !st.selfTried) = true := by
    simpa [SearchState.atFront, and_assoc] using hfront
  rw [step_eq_stepStem hat]
  simp only [stepStem, hat.char, hat.sub, if_neg hc, if_neg hfront']

/-- The first character of a stem is read if no inflexion may precede the stem. -/
theorem step_of_firstChar (hat : AtStem m st sub c) (hc : c ≠ boundary) (hfront : st.atFront) :
    m.step st =
      if m.stepSelf st.markTried sub.paradigm = [] then stepStemChar st.markTried c
      else m.stepSelf st.markTried sub.paradigm ++ [st.markTried] := by
  have hfront' : (decide (st.stemPos = 0) && st.levels.isEmpty && !st.selfTried) = true := by
    simpa [SearchState.atFront, and_assoc] using hfront
  have htried : { st with selfTried := true } = st.markTried := rfl
  rw [step_eq_stepStem hat]
  simp only [stepStem, hat.char, hat.sub, if_neg hc, if_pos hfront', htried]
  cases m.stepSelf st.markTried sub.paradigm <;> rfl

end Stem

/-! ## Moves from a part -/

section Part

variable {level : Nat} {l : Level} {i : Inflexion} {part : FlexPart}

theorem step_of_boundary (hat : AtPart m st level l i part) (hrole : part.role.isBoundary = true) :
    m.step st = [if handsOver st level l.part i then (st.modifyLevel level (·.nextPart)).leave level
      else st.modifyLevel level (·.nextPart)] := by
  simp only [step, stepLevel, hat.current, hat.level, hat.inflexion, hat.part]
  cases hr : part.role <;> simp_all [Role.isBoundary]

theorem step_of_self (hat : AtPart m st level l i part) (hrole : part.role = .startWithSelf) :
    m.step st = [st.modifyLevel level (·.nextPart)] := by
  simp only [step, stepLevel, hat.current, hat.level, hat.inflexion, hat.part, hrole]

theorem step_of_surface (hat : AtPart m st level l i part) (hrole : part.role.isMarker = false) :
    m.step st = stepSurface st level l part := by
  simp only [step, stepLevel, hat.current, hat.level, hat.inflexion, hat.part]
  cases hr : part.role <;> simp_all [Role.isMarker]

end Part

end Matcher

end Morphology
