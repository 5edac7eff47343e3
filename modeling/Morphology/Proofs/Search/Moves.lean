import Mathlib.Logic.Relation
import Morphology.Analysis.Matcher

/-!
# Moves of the search

`Matcher.step` lists the states one step further.  A move says the same as a relation, with one
constructor for each thing that a step can do, so that an invariant of the search is proved by one
case analysis.

## Main definitions

* `Matcher.AtPart` — the part of a level that is matched next
* `Matcher.Move` — a step of the search
* `Matcher.Reaches` — the states that the search comes to from a given one

## Main statements

* `Matcher.mem_step_iff` — the moves are the steps
* `Matcher.yields_of_mem_explore` — what an exploration finds is accepted in a state reached
-/

namespace Morphology

/-! ## Changes of a state -/

namespace SearchState

/-- The state in which inflexions in front of the stem count as tried. -/
def markTried (st : SearchState) : SearchState := { st with selfTried := true }

/-- Whether inflexions in front of the stem are still to be tried. -/
def atFront (st : SearchState) : Prop :=
  st.stemPos = 0 ∧ st.levels = [] ∧ st.selfTried = false

instance (st : SearchState) : Decidable st.atFront :=
  inferInstanceAs (Decidable (_ ∧ _ ∧ _))

variable (st : SearchState) (level : Nat) (f : Level → Level)

@[simp] theorem modifyLevel_placement : (st.modifyLevel level f).placement = st.placement := rfl

@[simp] theorem modifyLevel_current : (st.modifyLevel level f).current = st.current := rfl

@[simp] theorem modifyLevel_stemPos : (st.modifyLevel level f).stemPos = st.stemPos := rfl

@[simp] theorem modifyLevel_pos : (st.modifyLevel level f).pos = st.pos := rfl

@[simp] theorem modifyLevel_levels :
    (st.modifyLevel level f).levels = st.levels.modify level f := rfl

@[simp] theorem modifyLevel_derivations :
    (st.modifyLevel level f).derivations = st.derivations := rfl

end SearchState

namespace Matcher

variable {m : Matcher} {st st' : SearchState}

/-! ## Moves -/

/-- It is a level's turn, and this is the part of it that is matched next. -/
structure AtPart (m : Matcher) (st : SearchState) (level : Nat) (l : Level) (i : Inflexion)
    (part : FlexPart) : Prop where
  current : st.current = some level
  level : st.levels[level]? = some l
  inflexion : m.inflexionOf? l = some i
  part : i.parts[l.part]? = some part

/-- It is the turn of the stem of a sub-lexeme, and this is its next character. -/
structure AtStem (m : Matcher) (st : SearchState) (sub : SubLexeme) (c : Char) : Prop where
  current : st.current = none
  char : st.stemChar? = some c
  sub : m.grammar.subLexeme? st.placement.sub = some sub

/-- A step of the search. -/
inductive Move (m : Matcher) (st : SearchState) : SearchState → Prop
  /-- A character of the stem is read or a break passed.  If it is the first, no inflexion can
  precede the stem, or all have been tried. -/
  | stemChar {sub : SubLexeme} {c : Char} {st' : SearchState} (h : AtStem m st sub c)
      (hc : c ≠ boundary) (hfront : ¬ st.atFront) (hread : st' ∈ stepStemChar st c) : Move m st st'
  | firstChar {sub : SubLexeme} {c : Char} {st' : SearchState} (h : AtStem m st sub c)
      (hc : c ≠ boundary) (hfront : st.atFront) (hnone : m.stepSelf st.markTried sub.paradigm = [])
      (hread : st' ∈ stepStemChar st.markTried c) : Move m st st'
  /-- An inflexion that precedes the stem is opened. -/
  | openFront {sub : SubLexeme} {c : Char} {id : InflexionId} {i : Inflexion}
      (h : AtStem m st sub c) (hc : c ≠ boundary) (hfront : st.atFront)
      (hid : id ∈ m.mayFollow st.markTried true sub.paradigm)
      (hi : m.grammar.inflexion? id = some i) (hself : i.startWithSelf = true) :
      Move m st (m.openLevel st.markTried id)
  /-- The search goes on without an inflexion in front of the stem. -/
  | passFront {sub : SubLexeme} {c : Char} (h : AtStem m st sub c) (hc : c ≠ boundary)
      (hfront : st.atFront) (hsome : m.stepSelf st.markTried sub.paradigm ≠ []) :
      Move m st st.markTried
  /-- The first boundary of the stem opens a level. -/
  | openStem {sub : SubLexeme} {id : InflexionId} (h : AtStem m st sub boundary)
      (hnil : st.levels = [])
      (hid : id ∈ m.mayFollow { st with stemPos := st.stemPos + 1 } (st.stemPos == 0) sub.paradigm) :
      Move m st (m.openLevel { st with stemPos := st.stemPos + 1 } id)
  /-- A further boundary of the stem hands back to the first level. -/
  | enterFirst {sub : SubLexeme} (h : AtStem m st sub boundary) (hne : st.levels ≠ []) :
      Move m st { st with stemPos := st.stemPos + 1, current := some 0 }
  /-- A level that is matched to its end hands over to the one above. -/
  | leaveLevel {level : Nat} {l : Level} {i : Inflexion} (hcur : st.current = some level)
      (hl : st.levels[level]? = some l) (hi : m.inflexionOf? l = some i)
      (hend : i.parts[l.part]? = none) : Move m st (st.leave level)
  /-- A boundary hands over to the level above. -/
  | handOver {level : Nat} {l : Level} {i : Inflexion} {part : FlexPart}
      (h : AtPart m st level l i part) (hrole : part.role.isBoundary = true)
      (hover : handsOver st level l.part i = true) :
      Move m st ((st.modifyLevel level (·.nextPart)).leave level)
  /-- A boundary that does not hand over, or the sign for preceding the stem, is passed. -/
  | passMark {level : Nat} {l : Level} {i : Inflexion} {part : FlexPart}
      (h : AtPart m st level l i part)
      (hrole : part.role.isBoundary = true ∧ handsOver st level l.part i = false ∨
        part.role = .startWithSelf) :
      Move m st (st.modifyLevel level (·.nextPart))
  /-- A further continuation goes on with the level below. -/
  | enterNext {level : Nat} {l : Level} {i : Inflexion} {part : FlexPart}
      (h : AtPart m st level l i part) (hrole : part.role = .continuation)
      (hbelow : level + 1 < st.levels.length) :
      Move m st { st.modifyLevel level (·.nextPart) with current := some (level + 1) }
  /-- A continuation of the last level opens a level. -/
  | openNext {level : Nat} {l : Level} {i : Inflexion} {part : FlexPart} {h : Handle}
      {id : InflexionId} (hpart : AtPart m st level l i part) (hrole : part.role = .continuation)
      (hlast : st.levels.length = level + 1) (hh : h ∈ i.subsequent)
      (hid : id ∈ m.mayFollow (st.modifyLevel level (·.nextPart)) false h) :
      Move m st (m.openLevel (st.modifyLevel level (·.nextPart)) id)
  /-- A stem is incorporated. -/
  | incorporate {level : Nat} {l : Level} {i : Inflexion} {part : FlexPart} {sub : SubLexemeId}
      {length : Nat} (h : AtPart m st level l i part) (hrole : part.role = .incorporation)
      (hsub : (sub, length) ∈ m.incorporations st.placement.word st.pos) :
      Move m st { st.modifyLevel level (·.incorporate sub) with pos := st.pos + length }
  /-- A part that is matched to its end is left. -/
  | endPart {level : Nat} {l : Level} {i : Inflexion} {part : FlexPart}
      (h : AtPart m st level l i part) (hrole : part.role.isMarker = false)
      (hend : part.surface[l.consumed]? = none) :
      Move m st (st.modifyLevel level (·.nextPart))
  /-- A character of a part is read. -/
  | readChar {level : Nat} {l : Level} {i : Inflexion} {part : FlexPart} {c : Char}
      (h : AtPart m st level l i part) (hrole : part.role.isMarker = false)
      (hc : part.surface[l.consumed]? = some c) (hread : st.wordChar?.any (agree c) = true) :
      Move m st { st.modifyLevel level (fun l => { l with consumed := l.consumed + 1 }) with
        pos := st.pos + 1 }

/-! ## Moves are steps -/

private theorem mem_stepStem_iff {sub : SubLexeme} {c : Char} (h : AtStem m st sub c) :
    st' ∈ m.stepStem st ↔
      (c = boundary ∧ st' ∈ m.stepStemBoundary st sub.paradigm) ∨
      (c ≠ boundary ∧ ¬ st.atFront ∧ st' ∈ stepStemChar st c) ∨
      (c ≠ boundary ∧ st.atFront ∧ m.stepSelf st.markTried sub.paradigm = [] ∧
        st' ∈ stepStemChar st.markTried c) ∨
      (c ≠ boundary ∧ st.atFront ∧ m.stepSelf st.markTried sub.paradigm ≠ [] ∧
        (st' ∈ m.stepSelf st.markTried sub.paradigm ∨ st' = st.markTried)) := by
  have hfront : st.atFront ↔ (st.stemPos = 0 && st.levels.isEmpty && !st.selfTried) = true := by
    simp [SearchState.atFront, and_assoc]
  simp only [stepStem, h.char, h.sub]
  by_cases hc : c = boundary
  · -- Not at a boundary, the search is at the front of the stem, before any inflexion was tried
    -- there, or further on.
    simp [hc]
  · by_cases hf : st.atFront
    · have htried : { st with selfTried := true } = st.markTried := rfl
      rw [if_neg hc, if_pos (hfront.1 hf), htried]
      cases hs : m.stepSelf st.markTried sub.paradigm with
      | nil => simp [hc, hf]
      | cons a as => simp [hc, hf, or_assoc]
    · rw [if_neg hc, if_neg fun h' => hf (hfront.2 h')]
      simp [hc, hf]

private theorem mem_stepSelf_iff {h : Handle} :
    st' ∈ m.stepSelf st h ↔ ∃ id i, id ∈ m.mayFollow st true h ∧
      m.grammar.inflexion? id = some i ∧ i.startWithSelf = true ∧ st' = m.openLevel st id := by
  simp only [stepSelf, List.mem_map, List.mem_filter, Option.any_eq_true]
  constructor
  · rintro ⟨id, ⟨hid, i, hi, hself⟩, rfl⟩
    exact ⟨id, i, hid, hi, hself, rfl⟩
  · rintro ⟨id, i, hid, hi, hself, rfl⟩
    exact ⟨id, ⟨hid, i, hi, hself⟩, rfl⟩

private theorem move_of_mem_stepStemBoundary {sub : SubLexeme} (hat : AtStem m st sub boundary)
    (h : st' ∈ m.stepStemBoundary st sub.paradigm) : Move m st st' := by
  unfold stepStemBoundary at h
  by_cases hnil : st.levels = []
  · simp only [hnil, List.isEmpty_nil, if_true, List.mem_map] at h
    obtain ⟨id, hid, rfl⟩ := h
    exact hnil ▸ .openStem hat hnil (by simpa only [hnil] using hid)
  · simp only [List.isEmpty_iff, hnil, if_false, List.mem_singleton] at h
    subst h
    exact .enterFirst hat hnil

private theorem move_of_mem_stepContinuation {level : Nat} {l : Level} {i : Inflexion}
    {part : FlexPart} (hat : AtPart m st level l i part) (hrole : part.role = .continuation)
    (h : st' ∈ m.stepContinuation st level i) : Move m st st' := by
  unfold stepContinuation at h
  have hlen : level < st.levels.length := (List.getElem?_eq_some_iff.1 hat.level).1
  have hmod : (st.modifyLevel level (·.nextPart)).levels.length = st.levels.length := by
    simp [SearchState.modifyLevel]
  by_cases hbelow : level + 1 < st.levels.length
  · simp only [hmod, hbelow, if_true, List.mem_singleton] at h
    subst h
    exact .enterNext hat hrole hbelow
  · simp only [hmod, hbelow, if_false, List.mem_flatMap, List.mem_map] at h
    obtain ⟨hdl, hh, id, hid, rfl⟩ := h
    exact .openNext hat hrole (by omega) hh hid

private theorem move_of_mem_stepSurface {level : Nat} {l : Level} {i : Inflexion}
    {part : FlexPart} (hat : AtPart m st level l i part) (hrole : part.role.isMarker = false)
    (h : st' ∈ stepSurface st level l part) : Move m st st' := by
  unfold stepSurface at h
  cases hc : part.surface[l.consumed]? with
  | none =>
    obtain rfl : st' = st.modifyLevel level (·.nextPart) := by simpa [hc] using h
    exact .endPart hat hrole hc
  | some c =>
    simp only [hc] at h
    split at h
    · rename_i hread
      obtain rfl := List.mem_singleton.1 h
      exact .readChar hat hrole hc hread
    · exact absurd h List.not_mem_nil

private theorem move_of_mem_stepLevel {level : Nat} {l : Level} {i : Inflexion}
    {part : FlexPart} (hat : AtPart m st level l i part) (h : st' ∈ m.stepLevel st level) :
    Move m st st' := by
  simp only [stepLevel, hat.level, hat.inflexion, hat.part] at h
  -- A boundary is passed in every case; whether the level is left depends on its place.
  have hboundary (hrole : part.role.isBoundary = true)
      (h : st' ∈ [if handsOver st level l.part i then (st.modifyLevel level (·.nextPart)).leave level
        else st.modifyLevel level (·.nextPart)]) : Move m st st' := by
    obtain rfl := List.mem_singleton.1 h
    split
    · rename_i hover
      exact .handOver hat hrole hover
    · rename_i hover
      exact .passMark hat (.inl ⟨hrole, by simpa using hover⟩)
  -- The markers have steps of their own; every other part is matched with the word.
  cases hrole : part.role <;> simp only [hrole] at h
  case stem => exact hboundary (by rw [hrole]; rfl) h
  case forcedStem => exact hboundary (by rw [hrole]; rfl) h
  case startWithSelf =>
    obtain rfl := List.mem_singleton.1 h
    exact .passMark hat (.inr hrole)
  case continuation => exact move_of_mem_stepContinuation hat hrole h
  case incorporation =>
    simp only [stepIncorporation, List.mem_map] at h
    obtain ⟨⟨sub, length⟩, hsub, rfl⟩ := h
    exact .incorporate hat hrole hsub
  all_goals exact move_of_mem_stepSurface hat (by rw [hrole]; rfl) h

/-- A state one step further is one move further. -/
theorem move_of_mem_step (h : st' ∈ m.step st) : Move m st st' := by
  cases hcur : st.current with
  | none =>
    simp only [step, hcur] at h
    cases hc : st.stemChar? with
    | none => simp [stepStem, hc] at h
    | some c =>
      cases hsub : m.grammar.subLexeme? st.placement.sub with
      | none => simp [stepStem, hc, hsub] at h
      | some sub =>
        -- In the stem: at a boundary, at a character, or at the first character.
        have hat : AtStem m st sub c := ⟨hcur, hc, hsub⟩
        rcases (mem_stepStem_iff hat).1 h with
          ⟨rfl, h⟩ | ⟨hb, hf, h⟩ | ⟨hb, hf, hnone, h⟩ | ⟨hb, hf, hsome, h | rfl⟩
        · exact move_of_mem_stepStemBoundary hat h
        · exact .stemChar hat hb hf h
        · exact .firstChar hat hb hf hnone h
        · obtain ⟨id, i, hid, hi, hself, rfl⟩ := mem_stepSelf_iff.1 h
          exact .openFront hat hb hf hid hi hself
        · exact .passFront hat hb hf hsome
  | some level =>
    simp only [step, hcur] at h
    -- In a level: it is left behind its last part.
    cases hl : st.levels[level]? with
    | none => simp [stepLevel, hl] at h
    | some l =>
      cases hi : m.inflexionOf? l with
      | none => simp [stepLevel, hl, hi] at h
      | some i =>
        cases hp : i.parts[l.part]? with
        | none =>
          obtain rfl : st' = st.leave level := by simpa [stepLevel, hl, hi, hp] using h
          exact .leaveLevel hcur hl hi hp
        | some part => exact move_of_mem_stepLevel ⟨hcur, hl, hi, hp⟩ h

/-- A state one move further is one step further. -/
theorem mem_step_of_move (h : Move m st st') : st' ∈ m.step st := by
  cases h with
  | @stemChar sub c _ hat hc hfront hread =>
    simpa [step, hat.current] using (mem_stepStem_iff hat).2 (.inr (.inl ⟨hc, hfront, hread⟩))
  | @firstChar sub c _ hat hc hfront hnone hread =>
    simpa [step, hat.current] using
      (mem_stepStem_iff hat).2 (.inr (.inr (.inl ⟨hc, hfront, hnone, hread⟩)))
  | @openFront sub c id i hat hc hfront hid hi hself =>
    have hmem := mem_stepSelf_iff.2 ⟨id, i, hid, hi, hself, rfl⟩
    simpa [step, hat.current] using (mem_stepStem_iff hat).2
      (.inr (.inr (.inr ⟨hc, hfront, List.ne_nil_of_mem hmem, .inl hmem⟩)))
  | @passFront sub c hat hc hfront hsome =>
    simpa [step, hat.current] using
      (mem_stepStem_iff hat).2 (.inr (.inr (.inr ⟨hc, hfront, hsome, .inr rfl⟩)))
  | @openStem sub id hat hnil hid =>
    have hmem : m.openLevel { st with stemPos := st.stemPos + 1 } id ∈
        m.stepStemBoundary st sub.paradigm := by
      simpa [stepStemBoundary, hnil] using ⟨id, by simpa [hnil] using hid, rfl⟩
    simpa [step, hat.current] using (mem_stepStem_iff hat).2 (.inl ⟨rfl, hmem⟩)
  | @enterFirst sub hat hne =>
    have hmem : { st with stemPos := st.stemPos + 1, current := some 0 } ∈
        m.stepStemBoundary st sub.paradigm := by
      simp [stepStemBoundary, hne]
    simpa [step, hat.current] using (mem_stepStem_iff hat).2 (.inl ⟨rfl, hmem⟩)
  | leaveLevel hcur hl hi hend => simp [step, hcur, stepLevel, hl, hi, hend]
  | handOver hat hrole hover =>
    simp only [step, stepLevel, hat.current, hat.level, hat.inflexion, hat.part]
    split <;> simp_all [Role.isBoundary]
  | passMark hat hrole =>
    simp only [step, stepLevel, hat.current, hat.level, hat.inflexion, hat.part]
    split <;> simp_all [Role.isBoundary]
  | enterNext hat hrole hbelow =>
    simp [step, stepLevel, hat.current, hat.level, hat.inflexion, hat.part, hrole,
      stepContinuation, SearchState.modifyLevel, hbelow]
  | openNext hat hrole hlast hh hid =>
    simp only [step, stepLevel, hat.current, hat.level, hat.inflexion, hat.part, hrole,
      stepContinuation]
    rw [if_neg (by simp [hlast])]
    exact List.mem_flatMap.2 ⟨_, hh, List.mem_map.2 ⟨_, hid, rfl⟩⟩
  | @incorporate level l i part sub length hat hrole hsub =>
    simp only [step, stepLevel, hat.current, hat.level, hat.inflexion, hat.part, hrole,
      stepIncorporation]
    exact List.mem_map.2 ⟨(sub, length), hsub, rfl⟩
  | endPart hat hrole hend =>
    simp only [step, stepLevel, hat.current, hat.level, hat.inflexion, hat.part]
    split <;> simp_all [Role.isMarker, stepSurface]
  | readChar hat hrole hc hread =>
    simp only [step, stepLevel, hat.current, hat.level, hat.inflexion, hat.part]
    split <;> simp_all [Role.isMarker, stepSurface]

/-- The moves are the steps. -/
theorem mem_step_iff : st' ∈ m.step st ↔ Move m st st' :=
  ⟨move_of_mem_step, mem_step_of_move⟩

/-! ## States reached -/

/-- The search goes from one state to another in one step. -/
def Goes (m : Matcher) (st st' : SearchState) : Prop :=
  m.canContinue st = true ∧ st' ∈ m.step st

/-- The search comes from one state to another. -/
def Reaches (m : Matcher) : SearchState → SearchState → Prop :=
  Relation.ReflTransGen m.Goes

/-- A state leads to a wordform if the search comes from it to one in which the wordform is
accepted. -/
def Yields (m : Matcher) (host : List Char) (maxEdits : Nat) (st : SearchState) (w : Wordform) :
    Prop :=
  ∃ last, m.Reaches st last ∧ m.canContinue last = false ∧ m.accept? host maxEdits last = some w

variable {host : List Char} {maxEdits : Nat} {w : Wordform}

/-- A state that leads to a wordform accepts it, or a state one step further leads to it. -/
theorem yields_iff : m.Yields host maxEdits st w ↔
    m.canContinue st = false ∧ m.accept? host maxEdits st = some w ∨
      m.canContinue st = true ∧ ∃ st' ∈ m.step st, m.Yields host maxEdits st' w := by
  constructor
  · rintro ⟨last, hreach, hend, hacc⟩
    rcases Relation.ReflTransGen.cases_head hreach with rfl | ⟨st', hgo, hreach⟩
    · exact .inl ⟨hend, hacc⟩
    · exact .inr ⟨hgo.1, st', hgo.2, last, hreach, hend, hacc⟩
  · rintro (⟨hend, hacc⟩ | ⟨hgo, st', hst', last, hreach, hend, hacc⟩)
    · exact ⟨st, .refl, hend, hacc⟩
    · exact ⟨last, .head ⟨hgo, hst'⟩ hreach, hend, hacc⟩

/-- To lead to a wordform is to accept it, or to move to a state that leads to it. -/
@[elab_as_elim]
theorem Yields.induction {motive : ∀ st, m.Yields host maxEdits st w → Prop}
    (h : m.Yields host maxEdits st w)
    (accept : ∀ st (hend : m.canContinue st = false)
      (hacc : m.accept? host maxEdits st = some w), motive st (yields_iff.2 (.inl ⟨hend, hacc⟩)))
    (move : ∀ st st' (hgo : m.canContinue st = true) (hmove : Move m st st')
      (h : m.Yields host maxEdits st' w), motive st' h →
        motive st (yields_iff.2 (.inr ⟨hgo, st', mem_step_iff.2 hmove, h⟩))) :
    motive st h := by
  obtain ⟨last, hreach, hend, hacc⟩ := h
  induction hreach using Relation.ReflTransGen.head_induction_on with
  | refl => exact accept last hend hacc
  | head hgo hreach ih =>
    exact move _ _ hgo.1 (mem_step_iff.1 hgo.2) ⟨last, hreach, hend, hacc⟩ ih

/-- A property of a state that every step keeps holds in every state reached. -/
theorem Reaches.keeps {P : SearchState → Prop} (hstep : ∀ a b, P a → Move m a b → P b)
    (h : m.Reaches st st') (hst : P st) : P st' := by
  induction h with
  | refl => exact hst
  | tail _ hgo ih => exact hstep _ _ ih (mem_step_iff.1 hgo.2)

/-- What an exploration finds was found before, or a state on the stack leads to it. -/
theorem yields_of_mem_explore {steps : Nat} {found : List Wordform} {stack : List SearchState}
    (h : w ∈ (m.explore host maxEdits steps found stack).1) :
    w ∈ found ∨ ∃ st ∈ stack, m.Yields host maxEdits st w := by
  fun_induction explore m host maxEdits steps found stack with
  | case1 steps found => exact .inl (List.mem_reverse.1 h)
  | case2 found st stack => exact .inl (List.mem_reverse.1 h)
  | case3 steps found st stack hgo ih =>
    rcases ih h with hw | ⟨st', hst', hyields⟩
    · exact .inl hw
    · rcases List.mem_append.1 hst' with hst' | hst'
      · exact .inr ⟨st, List.mem_cons_self .., yields_iff.2 (.inr ⟨hgo, st', hst', hyields⟩)⟩
      · exact .inr ⟨st', List.mem_cons_of_mem _ hst', hyields⟩
  | case4 steps found st stack hend ih =>
    rcases ih h with hw | ⟨st', hst', hyields⟩
    · rcases List.mem_append.1 hw with hw | hw
      · have hacc := Option.mem_toList.1 hw
        exact .inr ⟨st, List.mem_cons_self .., yields_iff.2 (.inl ⟨by simpa using hend, hacc⟩)⟩
      · exact .inl hw
    · exact .inr ⟨st', List.mem_cons_of_mem _ hst', hyields⟩

/-- What a run finds, the state at the start of its placement leads to. -/
theorem yields_of_mem_run {p : Placement} {budget : Budget}
    (h : w ∈ (m.run host maxEdits p budget).1) : m.Yields host maxEdits (.start p) w := by
  rcases yields_of_mem_explore h with hw | ⟨st, hst, hyields⟩
  · exact absurd hw List.not_mem_nil
  · rwa [List.mem_singleton.1 hst] at hyields

end Matcher

end Morphology
