import Morphology.Proofs.Search.Budget
import Morphology.Proofs.Search.Typos

/-!
# The stretch that is known to agree

Where the index has found a stem, the search does not compare its characters with the word, but only
looks whether it is at the right place.  This is safe: the word, perhaps after corrections, has
there the characters of the stem, or wildcards for them.  A step that reads such a character is the
one that would be made by comparing, and no count of a state goes beyond what it counts.

## Main definitions

* `Placement.Agrees` — the word has the stretch of a placement
* `Placement.comparing` — a placement of which nothing is known to agree
* `Matcher.InBounds` — no count of a state goes beyond what it counts
* `Matcher.Safe` — a state of the search from a placement is in bounds, and nothing has to be
  compared

## Main statements

* `Analyzer.agrees_of_mem_lookup` — the word has the stretch of every placement
* `Matcher.InBounds.move` — every move stays in bounds
* `Matcher.step_comparing` — comparing the characters of the stretch changes nothing
* `Analyzer.safe_of_mem_lookup` — every state that the search comes to is safe
-/

namespace Morphology

/-! ## Keys in a text -/

/-- A text that has a key has each character of it, or a wildcard. -/
theorem KeyAt.exists_getElem? {key text : List Char} (h : KeyAt key text) {k : Nat} {c : Char}
    (hc : key[k]? = some c) : ∃ d, text[k]? = some d ∧ (d = c ∨ d = wildcard) := by
  induction key generalizing text k with
  | nil => cases hc
  | cons c' key ih =>
    cases text with
    | nil => exact h.elim
    | cons d text =>
      cases k with
      | zero =>
        obtain rfl : c' = c := Option.some.inj hc
        exact ⟨d, rfl, h.1⟩
      | succ k => exact ih h.2 hc

/-! ## Stretches -/

theorem marks_ne_of_isLiteral {c : Char} (h : isLiteral c = true) :
    c ≠ boundary ∧ c ≠ morphBreak := by
  constructor <;> rintro rfl <;> exact absurd h (by decide)

namespace Placement

/-- The characters of the stem that are known to agree. -/
def stretch (p : Placement) : List Char :=
  (p.pattern.drop p.patternStart).take p.length

/-- The word has the stretch, which is literal. -/
structure Agrees (p : Placement) : Prop where
  -- Breaks and boundaries would be passed without a character of the word.
  literal : ∀ c ∈ p.stretch, isLiteral c = true
  keyAt : KeyAt p.stretch (p.word.drop p.wordStart)

/-- The placement of which nothing is known to agree. -/
def comparing (p : Placement) : Placement := { p with length := 0 }

theorem covers_iff {p : Placement} {stemPos : Nat} :
    p.covers stemPos = true ↔ p.patternStart ≤ stemPos ∧ stemPos < p.patternStart + p.length := by
  rw [covers, Bool.and_eq_true]
  exact and_congr decide_eq_true_iff decide_eq_true_iff

@[simp] theorem covers_comparing (p : Placement) (stemPos : Nat) :
    p.comparing.covers stemPos = false := by
  rw [Bool.eq_false_iff, ne_eq, covers_iff]
  simp only [comparing]
  omega

/-- At a place of the stem in the stretch, the word has its character, or a wildcard, equally far
behind the beginning of the stretch. -/
theorem Agrees.exists_char {p : Placement} (h : p.Agrees) {stemPos : Nat} {c : Char}
    (hcovers : p.covers stemPos = true) (hc : p.pattern[stemPos]? = some c) :
    isLiteral c = true ∧ ∃ d, p.word[p.wordStart + stemPos - p.patternStart]? = some d ∧
      (d = c ∨ d = wildcard) := by
  obtain ⟨hle, hlt⟩ := covers_iff.1 hcovers
  obtain ⟨k, rfl⟩ := Nat.exists_eq_add_of_le hle
  have hstretch : p.stretch[k]? = some c := by
    rw [stretch, List.getElem?_take_of_lt (by omega), List.getElem?_drop, hc]
  obtain ⟨d, hd, hagree⟩ := h.keyAt.exists_getElem? hstretch
  have hplace : p.wordStart + (p.patternStart + k) - p.patternStart = p.wordStart + k := by omega
  refine ⟨h.literal c (List.mem_of_getElem? hstretch), d, ?_, hagree⟩
  rw [hplace, ← List.getElem?_drop]
  exact hd

end Placement

namespace Analyzer

variable {g : Grammar} {config : ParserConfig} {a : Analyzer} {word : List Char} {maxEdits : Nat}
  {found : StemMatch} {p : Placement}

/-- The word of a placement has the segment that was found, where it was found. -/
theorem segment_prefix_of_placement? (hplace : a.placement? word found = some p)
    (hstart : found.start ≤ word.length)
    (hplain : found.edits = [] → found.segment = word.extract found.start found.stop) :
    found.segment <+: p.word.drop p.wordStart := by
  obtain ⟨sub, -, rfl⟩ := Option.map_eq_some_iff.1 hplace
  show found.segment <+: (if found.edits.isEmpty then word else found.correctedWord word).drop
    found.start
  split
  · -- The word is not corrected, and the segment is a part of it.
    rename_i hedits
    rw [hplain (List.isEmpty_iff.1 hedits), List.extract_eq_take_drop]
    exact List.take_prefix ..
  · -- The segment is put in behind the front of the word, which stays.
    have hfront : (word.take found.start).length = found.start := List.length_take_of_le hstart
    rw [StemMatch.correctedWord, List.append_assoc, List.drop_left' hfront]
    exact List.prefix_append ..

/-- What the index finds in a word stands in the word of its placement, which has the stretch. -/
theorem agrees_of_mem_lookup (hbuild : build g config = .ok a)
    (hfound : found ∈ a.stems.lookup word maxEdits) (hplace : a.placement? word found = some p) :
    found.segment <+: p.word.drop p.wordStart ∧ p.Agrees := by
  have hgrammar := grammar_of_build hbuild
  obtain ⟨stems, -, -, hstems, -, -, hindex, -⟩ := build_eq_ok hbuild
  rw [hindex] at hfound
  obtain ⟨sub, key, value, hsub, hkey, hcorrects⟩ :=
    StemIndex.corrects_of_mem_lookup hstems hfound
  have hsegment := segment_prefix_of_placement? hplace
    (hcorrects.start_le.trans hcorrects.stop_le) hcorrects.plain
  obtain ⟨-, hpattern, hliteral⟩ := StemIndex.of_keyOf?_eq_some hkey
  obtain ⟨sub', hsub', hp⟩ := Option.map_eq_some_iff.1 hplace
  rw [grammar, hgrammar] at hsub'
  obtain rfl : sub' = sub := Option.some.inj (hsub'.symm.trans hsub)
  -- The key is the stretch, since the segment is as long as the key.
  have hstretch : p.stretch = key := by
    rw [hpattern, ← hcorrects.segment.length_eq, ← hp]
    rfl
  refine ⟨hsegment, ⟨hstretch ▸ hliteral, ?_⟩⟩
  have hkeyAt := hcorrects.segment
  rw [List.prefix_iff_eq_take.1 hsegment] at hkeyAt
  rw [hstretch]
  exact keyAt_of_forall₂_take hkeyAt

end Analyzer

namespace Matcher

variable {m : Matcher} {st st' : SearchState} {p : Placement}

/-! ## Reading the stem -/

/-- At the right place of the stretch the word has the character of the stem, or a wildcard. -/
theorem exists_wordChar_of_covers (hagrees : st.placement.Agrees) {c : Char}
    (hc : st.stemChar? = some c) (hcovers : st.placement.covers st.stemPos = true)
    (hread : st' ∈ stepStemChar st c) :
    ∃ d, st.wordChar? = some d ∧ (d = c ∨ d = wildcard) := by
  obtain ⟨hliteral, d, hd, hagree⟩ := hagrees.exists_char hcovers hc
  rw [stepStemChar, if_neg (marks_ne_of_isLiteral hliteral).2] at hread
  simp only [if_pos hcovers, List.mem_ite_nil_right, beq_iff_eq] at hread
  refine ⟨d, ?_, hagree⟩
  rw [SearchState.wordChar?, hread.1]
  exact hd

/-- A character of the stem is read only where the word has one that agrees with it, whether the
two are compared or not. -/
theorem agree_of_mem_stepStemChar (hagrees : st.placement.Agrees) {c : Char}
    (hc : st.stemChar? = some c) (hread : st' ∈ stepStemChar st c) (hbreak : c ≠ morphBreak) :
    st.wordChar?.any (agree c) = true ∧
      st' = { st with stemPos := st.stemPos + 1, pos := st.pos + 1 } := by
  by_cases hcovers : st.placement.covers st.stemPos = true
  · -- Here only the place is looked at, but the index has compared the characters.
    obtain ⟨d, hd, hagree⟩ := exists_wordChar_of_covers hagrees hc hcovers hread
    rw [stepStemChar, if_neg hbreak] at hread
    simp only [List.mem_ite_nil_right, List.mem_singleton] at hread
    refine ⟨?_, hread.2⟩
    rw [hd]
    rcases hagree with rfl | rfl <;> simp [agree]
  · rw [stepStemChar, if_neg hbreak] at hread
    simp only [if_neg hcovers, List.mem_ite_nil_right, List.mem_singleton] at hread
    exact hread

/-- If a character is read, comparing it with the word comes to the same. -/
theorem stepStemChar_comparing (hagrees : st.placement.Agrees) {c : Char}
    (hc : st.stemChar? = some c) (hread : st' ∈ stepStemChar st c) (hbreak : c ≠ morphBreak) :
    stepStemChar (st.placedAt st.placement.comparing) c =
      (stepStemChar st c).map (·.placedAt st.placement.comparing) := by
  obtain ⟨hany, rfl⟩ := agree_of_mem_stepStemChar hagrees hc hread hbreak
  have hstates : stepStemChar st c = [{ st with stemPos := st.stemPos + 1, pos := st.pos + 1 }] := by
    rw [stepStemChar, if_neg hbreak] at hread ⊢
    simp only [List.mem_ite_nil_right] at hread
    rw [if_pos hread.1]
  have hany' : (st.placedAt st.placement.comparing).wordChar?.any (agree c) = true := hany
  rw [hstates, stepStemChar, if_neg hbreak]
  show (if (if st.placement.comparing.covers st.stemPos = true then _ else _) = true
    then _ else _) = _
  rw [Placement.covers_comparing, if_neg Bool.false_ne_true, if_pos hany']
  rfl

section StemChar

variable {sub : SubLexeme} {c : Char}

/-- A step that moves on in the word reads the character. -/
theorem mem_stepStemChar_of_pos_lt (hat : AtStem m st sub c) (hc : c ≠ boundary)
    (hst' : st' ∈ m.step st) (hpos : st.pos < st'.pos) :
    st' ∈ stepStemChar st c ∨ st' ∈ stepStemChar st.markTried c := by
  by_cases hfront : st.atFront
  · rw [step_of_firstChar hat hc hfront] at hst'
    split at hst'
    · exact .inr hst'
    · -- Inflexions in front of the stem are opened before anything is read.
      rcases List.mem_append.1 hst' with hself | htried
      · obtain ⟨id, -, rfl⟩ := List.mem_map.1 hself
        exact absurd hpos (Nat.lt_irrefl _)
      · rw [List.mem_singleton.1 htried] at hpos
        exact absurd hpos (Nat.lt_irrefl _)
  · rw [step_of_stemChar hat hc hfront] at hst'
    exact .inl hst'

/-- Where a step reads a character of the stretch, the word has it, or a wildcard. -/
theorem exists_wordChar_of_step (hagrees : st.placement.Agrees) (hat : AtStem m st sub c)
    (hcovers : st.placement.covers st.stemPos = true) (hst' : st' ∈ m.step st)
    (hpos : st.pos < st'.pos) : ∃ d, st.wordChar? = some d ∧ (d = c ∨ d = wildcard) := by
  obtain ⟨hc, -⟩ := marks_ne_of_isLiteral (hagrees.exists_char hcovers hat.char).1
  rcases mem_stepStemChar_of_pos_lt hat hc hst' hpos with hread | hread
  · exact exists_wordChar_of_covers hagrees hat.char hcovers hread
  · have hagrees' : st.markTried.placement.Agrees := hagrees
    exact exists_wordChar_of_covers hagrees' hat.char hcovers hread

end StemChar

/-- The same inflexions precede the stem. -/
theorem stepSelf_comparing (hlooks : m.LooksAhead) (st : SearchState) (h : Handle) :
    m.stepSelf (st.placedAt st.placement.comparing) h =
      (m.stepSelf st h).map (·.placedAt st.placement.comparing) := by
  have hagree : AgreeFrom st.pos st.placement.word st.placement.comparing.word :=
    ⟨rfl, fun _ _ => rfl⟩
  have hfollow : m.mayFollow (st.placedAt st.placement.comparing) true h = m.mayFollow st true h :=
    reachable_placedAt hlooks hagree true _ h
  rw [stepSelf, hfollow, stepSelf, List.map_map]
  rfl

/-- A step from a character of the stretch that comes to any states comes to the same ones by
comparing the character with the word. -/
theorem step_comparing (hlooks : m.LooksAhead) (hagrees : st.placement.Agrees)
    (hcurrent : st.current = none) (hcovers : st.placement.covers st.stemPos = true)
    (hst' : st' ∈ m.step st) :
    m.step (st.placedAt st.placement.comparing) =
      (m.step st).map (·.placedAt st.placement.comparing) := by
  obtain ⟨sub, c, hat⟩ := exists_atStem_of_mem_step hcurrent hst'
  obtain ⟨hc, hbreak⟩ := marks_ne_of_isLiteral (hagrees.exists_char hcovers hat.char).1
  have hat' : AtStem m (st.placedAt st.placement.comparing) sub c :=
    ⟨hcurrent, hat.char, hat.sub⟩
  by_cases hfront : st.atFront
  · have hself := stepSelf_comparing hlooks st.markTried sub.paradigm
    have hfront' : (st.placedAt st.placement.comparing).atFront := hfront
    have htried : (st.placedAt st.placement.comparing).markTried =
        st.markTried.placedAt st.markTried.placement.comparing := rfl
    rw [step_of_firstChar hat hc hfront] at hst' ⊢
    rw [step_of_firstChar hat' hc hfront', htried, hself]
    -- The character is read only if there is no inflexion to be tried in front of it.
    by_cases hnone : m.stepSelf st.markTried sub.paradigm = []
    · rw [if_pos hnone] at hst' ⊢
      rw [if_pos (List.map_eq_nil_iff.2 hnone)]
      have hagrees' : st.markTried.placement.Agrees := hagrees
      have hchar : st.markTried.stemChar? = some c := hat.char
      exact stepStemChar_comparing hagrees' hchar hst' hbreak
    · rw [if_neg hnone, if_neg (mt List.map_eq_nil_iff.1 hnone), List.map_append]
      rfl
  · have hfront' : ¬ (st.placedAt st.placement.comparing).atFront := hfront
    rw [step_of_stemChar hat hc hfront] at hst' ⊢
    rw [step_of_stemChar hat' hc hfront']
    exact stepStemChar_comparing hagrees hat.char hst' hbreak

/-! ## Bounds -/

/-- No count of a state goes beyond what it counts, and all levels have inflexions. -/
structure InBounds (m : Matcher) (st : SearchState) : Prop where
  pos : st.pos ≤ st.placement.word.length
  stemPos : st.stemPos ≤ st.placement.pattern.length
  current : ∀ level, st.current = some level → level < st.levels.length
  parts : ∀ l ∈ st.levels, ∃ i, m.inflexionOf? l = some i ∧ l.part ≤ i.parts.length

namespace InBounds

theorem start (m : Matcher) (p : Placement) : InBounds m (.start p) where
  pos := Nat.zero_le _
  stemPos := Nat.zero_le _
  current := fun _ hcurrent => absurd hcurrent.symm (Option.some_ne_none _)
  parts := fun _ hl => absurd hl List.not_mem_nil

theorem markTried (h : InBounds m st) : InBounds m st.markTried :=
  ⟨h.pos, h.stemPos, h.current, h.parts⟩

/-- A mark of the stem may be passed. -/
theorem passMark (h : InBounds m st) {c : Char} (hc : st.stemChar? = some c) :
    InBounds m { st with stemPos := st.stemPos + 1 } :=
  ⟨h.pos, (List.getElem?_eq_some_iff.1 hc).1, h.current, h.parts⟩

theorem stepStemChar (h : InBounds m st) (hagrees : st.placement.Agrees) {c : Char}
    (hc : st.stemChar? = some c) (hread : st' ∈ stepStemChar st c) : InBounds m st' := by
  by_cases hbreak : c = morphBreak
  · rw [Matcher.stepStemChar, if_pos hbreak] at hread
    obtain rfl := List.mem_singleton.1 hread
    exact h.passMark hc
  · obtain ⟨hagree, rfl⟩ := agree_of_mem_stepStemChar hagrees hc hread hbreak
    have hpass := h.passMark hc
    exact ⟨pos_lt_of_wordChar? hagree, hpass.stemPos, h.current, h.parts⟩

/-- A level may be opened whose inflexion may follow. -/
theorem openLevel (h : InBounds m st) {before : SearchState} {slot : Bool} {paradigm : Handle}
    {id : InflexionId} (hid : id ∈ m.mayFollow before slot paradigm) :
    InBounds m (m.openLevel st id) where
  pos := h.pos
  stemPos := h.stemPos
  current := by
    rintro level ⟨⟩
    simp
  parts := by
    intro l hl
    rcases List.mem_append.1 hl with hl | hl
    · exact h.parts l hl
    · obtain rfl := List.mem_singleton.1 hl
      obtain ⟨-, i, hi, -⟩ := proper_of_mem_reachable hid
      exact ⟨i, hi, Nat.zero_le _⟩

variable {level : Nat} {l : Level} {i : Inflexion} {part : FlexPart}

/-- A level may be changed in which there is a part to be matched. -/
theorem modifyLevel (h : InBounds m st) (hat : AtPart m st level l i part) {f : Level → Level}
    (hsame : (f l).link.inflexion = l.link.inflexion) (hnext : (f l).part ≤ l.part + 1) :
    InBounds m (st.modifyLevel level f) where
  pos := h.pos
  stemPos := h.stemPos
  current := by
    intro n hn
    rw [SearchState.modifyLevel_levels, List.length_modify]
    exact h.current n hn
  parts := by
    intro l' hl'
    obtain ⟨n, hn⟩ := List.getElem?_of_mem hl'
    obtain ⟨l₀, hl₀, rfl⟩ := SearchState.getElem?_modifyLevel.1 hn
    split
    · rename_i heq
      obtain rfl : l₀ = l := Option.some.inj (hl₀.symm.trans (heq ▸ hat.level))
      have hlt : l₀.part < i.parts.length := (List.getElem?_eq_some_iff.1 hat.part).1
      refine ⟨i, ?_, hnext.trans hlt⟩
      rw [inflexionOf?, hsame]
      exact hat.inflexion
    · exact h.parts l₀ (List.mem_of_getElem? hl₀)

theorem nextPart (h : InBounds m st) (hat : AtPart m st level l i part) :
    InBounds m (st.modifyLevel level (·.nextPart)) :=
  h.modifyLevel hat rfl (Nat.le_refl _)

theorem enter (h : InBounds m st) (hlevel : level < st.levels.length) :
    InBounds m { st with current := some level } where
  pos := h.pos
  stemPos := h.stemPos
  current := by
    rintro n ⟨⟩
    exact hlevel
  parts := h.parts

theorem leave (h : InBounds m st) (hlevel : level < st.levels.length) :
    InBounds m (st.leave level) where
  pos := h.pos
  stemPos := h.stemPos
  current := by
    intro n hn
    unfold SearchState.leave at hn
    split at hn
    · exact absurd hn.symm (Option.some_ne_none _)
    · obtain rfl := Option.some.inj hn
      exact (Nat.sub_le _ _).trans_lt hlevel
  parts := h.parts

/-- Every move stays in bounds, if the word has the stretch and what is incorporated ends in it. -/
theorem move (hends : ∀ word pos sub length, (sub, length) ∈ m.incorporations word pos →
      pos + length ≤ word.length) (hagrees : st.placement.Agrees) (h : InBounds m st)
    (hmove : Move m st st') : InBounds m st' := by
  have hlt {level : Nat} {l : Level} {i : Inflexion} {part : FlexPart}
      (hat : AtPart m st level l i part) : level < st.levels.length :=
    h.current level hat.current
  cases hmove with
  -- Moves from the stem.
  | stemChar hat _ _ hread => exact h.stepStemChar hagrees hat.char hread
  | firstChar hat _ _ _ hread => exact h.markTried.stepStemChar hagrees hat.char hread
  | openFront _ _ _ hid _ _ => exact h.markTried.openLevel hid
  | passFront _ _ _ _ => exact h.markTried
  | openStem hat _ hid => exact (h.passMark hat.char).openLevel hid
  | enterFirst hat hne => exact (h.passMark hat.char).enter (List.length_pos_iff.2 hne)
  -- Moves from a level.
  | leaveLevel hcurrent _ _ _ => exact h.leave (h.current _ hcurrent)
  | handOver hat _ _ => exact (h.nextPart hat).leave (by simpa using hlt hat)
  | passMark hat _ => exact h.nextPart hat
  | enterNext hat _ hbelow => exact (h.nextPart hat).enter (by simpa using hbelow)
  | openNext hat _ _ _ hid => exact (h.nextPart hat).openLevel hid
  | @incorporate level l i part sub length hat _ hsub =>
    have hinc := h.modifyLevel (f := (·.incorporate sub)) hat rfl (Nat.le_refl _)
    exact { hinc with pos := hends _ _ _ _ hsub }
  | endPart hat _ _ => exact h.nextPart hat
  | @readChar level l i part c hat _ _ hread =>
    have hread' := h.modifyLevel (f := fun l => { l with consumed := l.consumed + 1 }) hat rfl
      (Nat.le_succ _)
    exact { hread' with pos := pos_lt_of_wordChar? hread }

/-- Every state that a search comes to is in bounds. -/
theorem of_reaches (hends : ∀ word pos sub length, (sub, length) ∈ m.incorporations word pos →
      pos + length ≤ word.length) (hagrees : p.Agrees) (hreach : m.Reaches (.start p) st) :
    InBounds m st := by
  -- No move changes the placement, so the word has the stretch in every state.
  have hkept : st.placement = p ∧ InBounds m st := by
    refine hreach.keeps (P := fun st => st.placement = p ∧ InBounds m st) ?_ ⟨rfl, .start m p⟩
    rintro a b ⟨rfl, ha⟩ hmove
    exact ⟨hmove.placement_eq, ha.move hends hagrees hmove⟩
  exact hkept.2

end InBounds

/-! ## Safety -/

/-- A state of the search from a placement is safe.  Its counts are in bounds, what is incorporated
stands in a place for it, and no place of the stretch lies in front of the word.  Where the search
goes on in the stretch, comparing would not change the step, and where it reads a character, the
word has it, or a wildcard. -/
structure Safe (m : Matcher) (p : Placement) (st : SearchState) : Prop where
  placement : st.placement = p
  bounds : InBounds m st
  incorporated : ∀ l ∈ st.levels, ∀ inc ∈ l.link.incorporated, ∃ i part,
    m.inflexionOf? l = some i ∧ i.parts[inc.part]? = some part ∧ part.role = .incorporation
  place : p.covers st.stemPos = true → p.patternStart ≤ p.wordStart + st.stemPos
  compared : st.current = none → p.covers st.stemPos = true → m.step st ≠ [] →
    m.step (st.placedAt p.comparing) = (m.step st).map (·.placedAt p.comparing)
  read : st.current = none → p.covers st.stemPos = true → ∀ st' ∈ m.step st, st.pos < st'.pos →
    ∃ c d, st.stemChar? = some c ∧ st.wordChar? = some d ∧ (d = c ∨ d = wildcard)

end Matcher

namespace Analyzer

variable {g : Grammar} {config : ParserConfig} {a : Analyzer} {word : List Char} {maxEdits : Nat}
  {found : StemMatch} {p : Placement}

/-- **Safety.**  What `lookup` finds stands in the word of its placement, and every state that the
search `Reaches` from there is `Safe`. -/
theorem safe_of_mem_lookup (hbuild : build g config = .ok a)
    (hfound : found ∈ a.stems.lookup word maxEdits) (hplace : a.placement? word found = some p) :
    p.wordStart = found.start ∧ p.length = found.segment.length ∧
      found.segment <+: p.word.drop p.wordStart ∧
        ∀ st, a.matcher.Reaches (.start p) st → a.matcher.Safe p st := by
  obtain ⟨hsegment, hagrees⟩ := agrees_of_mem_lookup hbuild hfound hplace
  obtain ⟨sub, -, hp⟩ := Option.map_eq_some_iff.1 hplace
  refine ⟨hp ▸ rfl, hp ▸ rfl, hsegment, fun st hreach => ?_⟩
  have hends : ∀ word pos sub length, (sub, length) ∈ a.matcher.incorporations word pos →
      pos + length ≤ word.length := fun _ _ _ _ hsub => (incorporated_of_build hbuild hsub).2
  have hsound := Matcher.Sound.of_reaches (candidatesOwned_of_build hbuild)
    (mayBeIncorporated_of_build hbuild) hreach
  obtain rfl := hsound.placement
  exact {
    placement := rfl
    bounds := .of_reaches hends hagrees hreach
    incorporated := by
      intro l hl inc hinc
      exact (hsound.incorporates l hl inc hinc).2
    place := fun hcovers => Nat.le_add_left_of_le (Placement.covers_iff.1 hcovers).1
    compared := by
      intro hcurrent hcovers hne
      obtain ⟨st', hst'⟩ := List.exists_mem_of_ne_nil _ hne
      exact Matcher.step_comparing (looksAhead_of_build hbuild) hagrees hcurrent hcovers hst'
    read := by
      intro hcurrent hcovers st' hst' hpos
      obtain ⟨sub, c, hat⟩ := Matcher.exists_atStem_of_mem_step hcurrent hst'
      obtain ⟨d, hd⟩ := Matcher.exists_wordChar_of_step hagrees hat hcovers hst' hpos
      exact ⟨c, d, hat.char, hd⟩ }

/-- A state in the stretch of a corrected word. -/
theorem safe_of_mem_lookup_sampleNouns :
    ∃ a found p st, build ((GrammarDraft.start default).add sampleNouns).compile.grammar
        correctingAll = .ok a ∧
      found ∈ a.stems.lookup "actsm".toList 1 ∧ a.placement? "actsm".toList found = some p ∧
      p.word = "catsm".toList ∧ found.segment <+: p.word.drop p.wordStart ∧
      a.matcher.Reaches (.start p) st ∧ p.covers st.stemPos = true ∧ st.pos = 1 ∧
      a.matcher.Safe p st := by
  let g := ((GrammarDraft.start default).add sampleNouns).compile.grammar
  have htest : ((build g correctingAll).toOption.any fun a =>
      (a.stems.lookup "actsm".toList 1).any fun found =>
        (a.placement? "actsm".toList found).any fun p => p.word == "catsm".toList &&
          (a.matcher.visit 50 [.start p]).1.any fun st =>
            p.covers st.stemPos && st.pos == 1) = true := by
    decide +kernel
  obtain ⟨a, hbuild, hlookup⟩ := exists_eq_ok_of_any htest
  obtain ⟨found, hfound, hplaced⟩ := List.any_eq_true.1 hlookup
  obtain ⟨p, hplace, hvisited⟩ := Option.any_eq_true _ _ |>.1 hplaced
  simp only [Bool.and_eq_true, List.any_eq_true, beq_iff_eq] at hvisited
  obtain ⟨hword, st, hst, hcovers, hpos⟩ := hvisited
  obtain ⟨first, hfirst, hreach⟩ := Matcher.exists_reaches_of_mem_visit hst
  obtain rfl := List.mem_singleton.1 hfirst
  obtain ⟨-, -, hsegment, hsafe⟩ := safe_of_mem_lookup hbuild hfound hplace
  exact ⟨a, found, p, st, hbuild, hfound, hplace, hword, hsegment, hreach, hcovers, hpos,
    hsafe st hreach⟩

end Analyzer

end Morphology
