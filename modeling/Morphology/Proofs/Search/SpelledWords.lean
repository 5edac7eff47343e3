import Morphology.Proofs.Grammar.Spelling
import Morphology.Proofs.Search.Soundness

/-!
# Words that levels and chains spell

The levels of a state still spell a text: each level its own parts, with the text of the level below
in place of its continuation.  A plain stem is placed at the front of the word that a chain of
suffixes spells behind it.

## Main definitions

* `Matcher.ahead`, `Matcher.aheadAll` — what a level and what all levels still spell
* `Matcher.IsClosed`, `Matcher.IsDone` — no continuation lies ahead, nothing lies ahead
* `Matcher.Spells` — a placement of a plain stem in the word that a chain spells behind it

## Main statements

* `Matcher.aheadAll_modify` — what the level matched next spells comes first
* `Matcher.isFinished_of_ahead` — a closed level that spells nothing more is finished
-/

namespace Morphology

namespace Matcher

variable {m : Matcher} {st : SearchState} {inner : List Char} {l : Level} {levels : List Level}

/-! ## What levels still spell -/

/-- The characters that a level still spells, with a text in place of its continuation. -/
def ahead (m : Matcher) (inner : List Char) (l : Level) : List Char :=
  match (m.grammar.partsOf l.link.inflexion).drop l.part with
  | [] => []
  | part :: parts =>
    (if part.role = .continuation then inner else part.surface.drop l.consumed) ++
      spell inner parts

/-- The characters that levels still spell: each is ended before the one above goes on. -/
def aheadAll (m : Matcher) (inner : List Char) : List Level → List Char
  | [] => []
  | l :: levels => m.aheadAll inner levels ++ m.ahead inner l

/-- No continuation of a level lies ahead. -/
def IsClosed (m : Matcher) (l : Level) : Prop :=
  ∀ part ∈ (m.grammar.partsOf l.link.inflexion).drop l.part, part.role ≠ .continuation

/-- A level is matched to its end. -/
def IsDone (m : Matcher) (l : Level) : Prop :=
  (m.grammar.partsOf l.link.inflexion).drop l.part = []

theorem IsDone.ahead_eq (h : m.IsDone l) (inner : List Char) : m.ahead inner l = [] := by
  unfold IsDone at h
  simp only [ahead, h]

theorem ahead_start (m : Matcher) (inner : List Char) (id : InflexionId) :
    m.ahead inner (.start id) = spell inner (m.grammar.partsOf id) := by
  simp only [ahead, Level.start, List.drop_zero]
  cases m.grammar.partsOf id with
  | nil => rfl
  | cons part parts => simp [spell_cons]

theorem ahead_nextPart (m : Matcher) (inner : List Char) (l : Level) :
    m.ahead inner l.nextPart =
      spell inner ((m.grammar.partsOf l.link.inflexion).drop (l.part + 1)) := by
  simp only [ahead, Level.nextPart]
  cases (m.grammar.partsOf l.link.inflexion).drop (l.part + 1) with
  | nil => rfl
  | cons part parts => simp [spell_cons]

section Part

variable {i : Inflexion} {part : FlexPart}

theorem drop_eq_cons (hi : m.inflexionOf? l = some i) (hpart : i.parts[l.part]? = some part) :
    (m.grammar.partsOf l.link.inflexion).drop l.part =
      part :: (m.grammar.partsOf l.link.inflexion).drop (l.part + 1) := by
  obtain ⟨hlt, hget⟩ := List.getElem?_eq_some_iff.1 hpart
  rw [Grammar.partsOf_eq hi, ← hget, List.cons_getElem_drop_succ]

/-- A level spells its current part first. -/
theorem ahead_of_part (hi : m.inflexionOf? l = some i) (hpart : i.parts[l.part]? = some part)
    (inner : List Char) : m.ahead inner l =
      (if part.role = .continuation then inner else part.surface.drop l.consumed) ++
        m.ahead inner l.nextPart := by
  rw [ahead_nextPart]
  simp only [ahead, drop_eq_cons hi hpart]

/-- To go on behind a part that is no continuation opens or closes nothing. -/
theorem isClosed_nextPart_iff (hi : m.inflexionOf? l = some i)
    (hpart : i.parts[l.part]? = some part) (hrole : part.role ≠ .continuation) :
    m.IsClosed l.nextPart ↔ m.IsClosed l := by
  unfold IsClosed
  rw [drop_eq_cons hi hpart, List.forall_mem_cons]
  exact (and_iff_right hrole).symm

/-- Behind its only continuation a level is closed. -/
theorem isClosed_nextPart (hi : m.inflexionOf? l = some i) (hpart : i.parts[l.part]? = some part)
    (hrole : part.role = .continuation) (hone : i.continuations ≤ 1) : m.IsClosed l.nextPart := by
  have hdrop := drop_eq_cons hi hpart
  rw [Grammar.partsOf_eq hi] at hdrop
  have hcount : (i.parts.drop l.part).countP (·.role = .continuation) ≤ 1 :=
    ((List.drop_sublist ..).countP_le).trans hone
  rw [hdrop, List.countP_cons_of_pos (by simpa using hrole)] at hcount
  intro q hq
  have hq : q ∈ i.parts.drop (l.part + 1) := by
    rw [← Grammar.partsOf_eq hi]
    exact hq
  have hzero : (i.parts.drop (l.part + 1)).countP (·.role = .continuation) = 0 := by omega
  simpa using List.countP_eq_zero.1 hzero q hq

end Part

theorem aheadAll_append (m : Matcher) (inner : List Char) (levels : List Level) (l : Level) :
    m.aheadAll inner (levels ++ [l]) = m.ahead inner l ++ m.aheadAll inner levels := by
  induction levels with
  | nil => simp [aheadAll]
  | cons l' levels ih => simp [aheadAll, ih]

theorem aheadAll_eq_nil (h : ∀ l ∈ levels, m.IsDone l) : m.aheadAll inner levels = [] := by
  induction levels with
  | nil => rfl
  | cons l levels ih =>
    obtain ⟨hl, hlevels⟩ := List.forall_mem_cons.1 h
    rw [aheadAll, ih hlevels, hl.ahead_eq, List.append_nil]

/-- Closed levels do not depend on what stands in continuations. -/
theorem aheadAll_congr (h : ∀ l ∈ levels, m.IsClosed l) (inner inner' : List Char) :
    m.aheadAll inner levels = m.aheadAll inner' levels := by
  induction levels with
  | nil => rfl
  | cons l levels ih =>
    obtain ⟨hl, hlevels⟩ := List.forall_mem_cons.1 h
    rw [aheadAll, aheadAll, ih hlevels]
    congr 1
    unfold IsClosed at hl
    unfold ahead
    cases hdrop : (m.grammar.partsOf l.link.inflexion).drop l.part with
    | nil => rfl
    | cons part parts =>
      rw [hdrop] at hl
      obtain ⟨hpart, hparts⟩ := List.forall_mem_cons.1 hl
      simp only [if_neg hpart, spell_of_closed hparts]

/-- What the level matched next spells comes first, since the levels below have nothing to spell. -/
theorem aheadAll_modify {n : Nat} {f : Level → Level} {text : List Char}
    (hl : levels[n]? = some l) (hbelow : ∀ k l', n < k → levels[k]? = some l' → m.IsDone l')
    (hf : m.ahead inner l = text ++ m.ahead inner (f l)) :
    m.aheadAll inner levels = text ++ m.aheadAll inner (levels.modify n f) := by
  induction levels generalizing n with
  | nil => simp at hl
  | cons l' levels ih =>
    cases n with
    | zero =>
      obtain rfl : l' = l := by simpa using hl
      -- The levels below are done.
      have hnil : m.aheadAll inner levels = [] := by
        apply aheadAll_eq_nil
        intro l'' hl''
        obtain ⟨k, hk⟩ := List.getElem?_of_mem hl''
        exact hbelow (k + 1) l'' (Nat.succ_pos k) (by simpa using hk)
      simp [aheadAll, hnil, hf]
    -- The levels in front are not changed.
    | succ n =>
      have := ih (by simpa using hl) fun k l'' hk hl'' =>
        hbelow (k + 1) l'' (by omega) (by simpa using hl'')
      simp [aheadAll, this]

/-! ### Nothing left to spell -/

theorem ahead_eq_nil_of_aheadAll (h : m.aheadAll inner levels = []) (hl : l ∈ levels) :
    m.ahead inner l = [] := by
  induction levels with
  | nil => exact absurd hl List.not_mem_nil
  | cons l' levels ih =>
    obtain ⟨hbelow, hhere⟩ := List.append_eq_nil_iff.1 h
    rcases List.mem_cons.1 hl with rfl | hl
    · exact hhere
    · exact ih hbelow hl

theorem mayRemain_of_surface_eq_nil {part : FlexPart} (hsurface : part.surface = [])
    (hrole : part.role ≠ .incorporation) : mayRemain part = true := by
  unfold mayRemain
  cases hr : part.role <;> simp_all

/-- A closed level that spells nothing more `isFinished`. -/
theorem isFinished_of_ahead {i : Inflexion} (hi : m.inflexionOf? l = some i)
    (hclosed : m.IsClosed l) (hinc : i.incorporates = false) (h : m.ahead inner l = []) :
    m.isFinished l = true := by
  have hplace (part : FlexPart) (hpart : part ∈ i.parts.drop l.part) :
      part.role ≠ .incorporation := by
    have := List.any_eq_false.1 hinc part (List.mem_of_mem_drop hpart)
    simpa using this
  unfold IsClosed at hclosed
  unfold ahead at h
  rw [Grammar.partsOf_eq hi] at hclosed h
  simp only [isFinished, hi]
  cases hdrop : i.parts.drop l.part with
  | nil => rfl
  | cons part parts =>
    -- What is left of a part is read to its end, and the parts behind it are empty.
    rw [hdrop] at hclosed hplace h
    obtain ⟨hpart, hparts⟩ := List.forall_mem_cons.1 hclosed
    obtain ⟨hhere, hmore⟩ := List.append_eq_nil_iff.1 h
    rw [spell_of_closed hparts, List.flatMap_eq_nil_iff] at hmore
    rw [if_neg hpart, List.drop_eq_nil_iff] at hhere
    have hinc := hplace part (List.mem_cons_self ..)
    have hall : parts.all mayRemain = true := by
      rw [List.all_eq_true]
      intro q hq
      exact mayRemain_of_surface_eq_nil (hmore q hq) (hplace q (List.mem_cons_of_mem _ hq))
    simp [hall, hinc, hhere]

/-! ## The word that a chain spells -/

/-- A plain stem is placed at the front of the word that a chain spells behind it. -/
structure Spells (m : Matcher) (p : Placement) (stem : List Char) (sub : SubLexeme)
    (chain : List InflexionId) : Prop where
  pattern : p.pattern = stem ++ [boundary]
  plain : boundary ∉ stem
  stem_ne_nil : stem ≠ []
  aligned : ∀ k < stem.length, p.covers k = true →
    (withoutBreaks (stem.take k)).length = p.wordStart + k - p.patternStart
  word : p.word = withoutBreaks stem ++ m.grammar.chainText chain
  known : m.grammar.subLexeme? p.sub = some sub
  chain_ne_nil : chain ≠ []
  legal : m.grammar.LegalChain m.limits sub.paradigm chain
  last : ∀ id ∈ chain.getLast?, ∀ i, m.grammar.inflexion? id = some i → i.continues = false
  wellFormed : ∀ id i, m.grammar.inflexion? id = some i → i.WellFormed
  suffix : ∀ id i, m.grammar.inflexion? id = some i → i.isLink = false → i.IsSuffix
  candidate : ∀ id i pos, m.grammar.inflexion? id = some i → pos ≤ p.word.length →
    KeyAt i.anchoredKey (p.word.drop pos) → id ∈ m.candidates id.paradigm p.word pos false

variable {p : Placement} {stem : List Char} {sub : SubLexeme} {chain rest : List InflexionId}
  {id : InflexionId}

namespace Spells

/-- The inflexions of the chain are suffixes. -/
theorem exists_inflexion (h : Spells m p stem sub chain) (hid : id ∈ chain) :
    ∃ i, m.grammar.inflexion? id = some i ∧ i.isLink = false ∧ i.WellFormed ∧ i.IsSuffix := by
  obtain ⟨i, hi, hlink⟩ := (h.legal.licensed h.chain_ne_nil).proper id hid
  exact ⟨i, hi, hlink, h.wellFormed id i hi, h.suffix id i hi hlink⟩

/-- No inflexion precedes its stem. -/
theorem startWithSelf_eq_false (h : Spells m p stem sub chain) {i : Inflexion}
    (hi : m.grammar.inflexion? id = some i) : i.startWithSelf = false := by
  apply (h.wellFormed id i hi).startWithSelf_eq_false
  cases hlink : i.isLink with
  | true => simp [Inflexion.parts_of_isLink hlink]
  | false => exact (h.suffix id i hi hlink).self

/-- An inflexion of the chain has a continuation just if it is not the last one. -/
theorem isClosed_start_iff (h : Spells m p stem sub chain) {before : List InflexionId}
    (hchain : chain = before ++ id :: rest) : m.IsClosed (.start id) ↔ rest = [] := by
  have hid : id ∈ chain := by
    rw [hchain]
    exact List.mem_append_right _ (List.mem_cons_self ..)
  obtain ⟨i, hi, -⟩ := h.exists_inflexion hid
  -- A level at its start is closed if the inflexion has no continuation.
  have hclosed : m.IsClosed (.start id) ↔ i.continues = false := by
    unfold IsClosed
    rw [show (Level.start id).link.inflexion = id from rfl, Grammar.partsOf_eq hi]
    simp [Level.start, Inflexion.continues]
  rw [hclosed]
  constructor
  · intro hcont
    by_contra hne
    -- An inflexion that another one follows has a continuation.
    have hinit : id ∈ chain.dropLast := by
      rw [hchain, List.dropLast_append_of_ne_nil (List.cons_ne_nil _ _),
        List.dropLast_cons_of_ne_nil hne]
      exact List.mem_append_right _ (List.mem_cons_self ..)
    obtain ⟨i', hi', hcont'⟩ := (h.legal.licensed h.chain_ne_nil).continued id hinit
    obtain rfl : i = i' := Option.some.inj (hi.symm.trans hi')
    exact Bool.false_ne_true (hcont.symm.trans hcont')
  · -- The last inflexion has none by the choice of the chain.
    rintro rfl
    exact h.last id (by simp [hchain]) i hi

end Spells

end Matcher

end Morphology
