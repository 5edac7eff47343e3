import Morphology.Proofs.Search.SpelledWords
import Morphology.Proofs.Search.Termination

/-!
# The track of a chain

A state is on track to a chain if its levels are those of the chain down to a rest, and what they
still spell, with the characters of the rest in place of the last continuation, is the rest of the
word.  A state on track always has a move that keeps on track, and the search gives up on track only
when the chain is matched to its end.

## Main definitions

* `Matcher.AtOpening` — the next inflexion of the chain is to be opened
* `Matcher.OnTrack` — the invariant of the search behind the stem

## Main statements

* `Matcher.AtOpening.onTrack` — to open the next inflexion leads onto the track
* `Matcher.OnTrack.exists_move` — a state on track has a move that keeps on track
* `Matcher.OnTrack.isComplete` — where the search gives up on track, the chain is matched
-/

namespace Morphology

namespace Matcher

variable {m : Matcher} {st : SearchState} {l : Level} {p : Placement} {stem : List Char}
  {sub : SubLexeme} {chain rest : List InflexionId} {id : InflexionId}

/-! ## Opening the next level -/

/-- The next inflexion of the chain is to be opened. -/
structure AtOpening (m : Matcher) (p : Placement) (chain : List InflexionId) (id : InflexionId)
    (rest : List InflexionId) (st : SearchState) : Prop where
  placement : st.placement = p
  links : st.levels.map (·.link) ++ (id :: rest).map (⟨·, []⟩) = chain.map (⟨·, []⟩)
  derivations : st.derivations = m.grammar.derivationsOf st.chain
  stemPos : st.stemPos = p.pattern.length
  pos : st.pos ≤ p.word.length
  text : p.word.drop st.pos =
    m.grammar.chainText (id :: rest) ++ m.aheadAll (m.grammar.chainText rest) st.levels
  closed : ∀ l ∈ st.levels, m.IsClosed l

/-- The levels are those of the chain down to `rest`, and spell the rest of the word with the
characters of `rest` in place of the last continuation. -/
structure OnTrack (m : Matcher) (p : Placement) (chain rest : List InflexionId) (st : SearchState) :
    Prop where
  placement : st.placement = p
  links : st.levels.map (·.link) ++ rest.map (⟨·, []⟩) = chain.map (⟨·, []⟩)
  derivations : st.derivations = m.grammar.derivationsOf st.chain
  stemPos : st.stemPos = p.pattern.length
  pos : st.pos ≤ p.word.length
  text : p.word.drop st.pos = m.aheadAll (m.grammar.chainText rest) st.levels
  opened : st.levels ≠ []
  /-- Only the last level may have its continuation ahead, and has so if there is a rest. -/
  closed : ∀ n l, st.levels[n]? = some l →
    (m.IsClosed l ↔ n + 1 < st.levels.length ∨ rest = [])
  turn : depth st ≤ st.levels.length
  done : ∀ n l, depth st ≤ n → st.levels[n]? = some l → m.IsDone l

theorem chain_append_of_links {st : SearchState}
    (h : st.levels.map (·.link) ++ rest.map (⟨·, []⟩) = chain.map (⟨·, []⟩)) :
    st.chain ++ rest = chain := by
  have := congrArg (List.map (·.inflexion)) h
  simpa [SearchState.chain, Function.comp_def] using this

namespace AtOpening

/-- The inflexion is tried if it may follow (`MayFollow`): it spells its key first. -/
theorem mem_mayFollow (h : Spells m p stem sub chain) (ho : AtOpening m p chain id rest st)
    {start : Handle} (hfollow : m.grammar.MayFollow m.limits st.chain start id) :
    id ∈ m.mayFollow st false start := by
  have hchain := chain_append_of_links ho.links
  apply Matcher.mem_mayFollow ho.derivations ?_ hfollow
  · intro j i hi hj
    rw [ho.placement]
    apply h.candidate j i st.pos hi ho.pos
    rcases hj with hlink | rfl
    · -- A link has no parts, and so an empty key.
      rw [Inflexion.anchoredKey, Inflexion.parts_of_isLink hlink]
      trivial
    · obtain ⟨more, hmore⟩ :=
        Inflexion.exists_spell_eq (h.wellFormed j i hi) (m.grammar.chainText rest)
      rw [ho.text, Grammar.chainText, Grammar.partsOf_eq hi, hmore, List.append_assoc]
      exact KeyAt.refl_append _ _
  · -- The inflexions before are those of the chain.
    intro j hj
    have hmem : j ∈ chain := by
      rw [← hchain]
      exact List.mem_append_left _ hj
    obtain ⟨i, hi, hlink, -⟩ := h.exists_inflexion hmem
    exact ⟨i, hi, hlink⟩

theorem onTrack (h : Spells m p stem sub chain) (ho : AtOpening m p chain id rest st) :
    OnTrack m p chain rest (m.openLevel st id) where
  placement := ho.placement
  links := by
    rw [← ho.links]
    simp [Level.start]
  derivations := openLevel_derivations ho.derivations id
  stemPos := ho.stemPos
  pos := ho.pos
  text := by
    rw [openLevel_levels, aheadAll_append, ahead_start]
    exact ho.text
  opened := by simp
  closed := by
    intro n l hl
    rw [openLevel_levels] at hl ⊢
    rw [List.length_append, List.length_singleton]
    -- The levels before are closed; the new one is open just if something follows.
    rcases Nat.lt_trichotomy n st.levels.length with hlt | rfl | hgt
    · rw [List.getElem?_append_left hlt] at hl
      exact iff_of_true (ho.closed l (List.mem_of_getElem? hl)) (.inl (by omega))
    · obtain rfl : .start id = l := by simpa using hl
      rw [h.isClosed_start_iff (chain_append_of_links ho.links).symm]
      simp
    · have := (List.getElem?_eq_some_iff.1 hl).1
      rw [List.length_append, List.length_singleton] at this
      omega
  turn := by
    show st.levels.length + 1 ≤ _
    simp
  done := by
    intro n l hn hl
    have hn : st.levels.length + 1 ≤ n := hn
    have := (List.getElem?_eq_some_iff.1 hl).1
    rw [openLevel_levels, List.length_append, List.length_singleton] at this
    omega

end AtOpening

/-! ## Moves on the track -/

namespace OnTrack

/-- The levels are known suffixes. -/
theorem exists_inflexion (h : Spells m p stem sub chain) (ht : OnTrack m p chain rest st)
    (hl : l ∈ st.levels) :
    ∃ i, m.inflexionOf? l = some i ∧ i.isLink = false ∧ i.WellFormed ∧ i.IsSuffix := by
  apply h.exists_inflexion
  rw [← chain_append_of_links ht.links]
  apply List.mem_append_left
  exact List.mem_map_of_mem hl

theorem done_below (ht : OnTrack m p chain rest st) {level : Nat} (hcur : st.current = some level) :
    ∀ k l', level < k → st.levels[k]? = some l' → m.IsDone l' := by
  intro k l' hk hl'
  apply ht.done k l' ?_ hl'
  simpa [depth, hcur, Nat.succ_le_iff] using hk

/-- What the level whose turn it is spells next is next in the word. -/
theorem text_modify (ht : OnTrack m p chain rest st) {level : Nat} (hcur : st.current = some level)
    (hl : st.levels[level]? = some l) {f : Level → Level} {text : List Char}
    (htext : m.ahead (m.grammar.chainText rest) l =
      text ++ m.ahead (m.grammar.chainText rest) (f l)) :
    p.word.drop st.pos =
      text ++ m.aheadAll (m.grammar.chainText rest) (st.modifyLevel level f).levels := by
  rw [ht.text]
  apply aheadAll_modify hl ?_ htext
  exact ht.done_below hcur

/-- To match more of the level whose turn it is keeps the search `OnTrack`. -/
theorem modify (ht : OnTrack m p chain rest st) {level : Nat} (hcur : st.current = some level)
    (hl : st.levels[level]? = some l) {f : Level → Level} (hlink : ∀ l, (f l).link = l.link)
    (hclosed : m.IsClosed (f l) ↔ m.IsClosed l) {text : List Char}
    (htext : m.ahead (m.grammar.chainText rest) l =
      text ++ m.ahead (m.grammar.chainText rest) (f l)) :
    OnTrack m p chain rest { st.modifyLevel level f with pos := st.pos + text.length } := by
  have hsame := st.sameChain_modifyLevel level (f := f) fun l => by rw [hlink]
  have hrest := ht.text_modify hcur hl htext
  exact {
    placement := ht.placement
    links := by
      rw [← ht.links]
      exact congrArg (· ++ _) (st.map_modifyLevel level hlink)
    derivations := ht.derivations.trans (congrArg _ hsame.chain.symm)
    stemPos := ht.stemPos
    pos := by
      have hlen := congrArg List.length hrest
      rw [List.length_drop, List.length_append] at hlen
      have := ht.pos
      show st.pos + text.length ≤ _
      omega
    text := by
      show p.word.drop (st.pos + text.length) = _
      rw [← List.drop_drop, hrest, List.drop_left]
    opened := by
      have := ht.opened
      simpa using this
    closed := by
      intro n l' hl'
      obtain ⟨l₀, hl₀, rfl⟩ := SearchState.getElem?_modifyLevel.1 hl'
      rw [SearchState.modifyLevel_levels, List.length_modify, ← ht.closed n l₀ hl₀]
      split
      · rename_i heq
        subst heq
        obtain rfl : l = l₀ := Option.some.inj (hl.symm.trans hl₀)
        exact hclosed
      · rfl
    turn := by
      have := ht.turn
      simpa [depth] using this
    done := by
      intro n l' hn hl'
      have hn : level + 1 ≤ n := by simpa [depth, hcur] using hn
      obtain ⟨l₀, hl₀, rfl⟩ := SearchState.getElem?_modifyLevel.1 hl'
      rw [if_neg (by omega)]
      exact ht.done_below hcur n l₀ (by omega) hl₀ }

/-- To pass a part that spells nothing more keeps on track. -/
theorem nextPart (ht : OnTrack m p chain rest st) {level : Nat} {i : Inflexion} {part : FlexPart}
    (hat : AtPart m st level l i part) (hrole : part.role ≠ .continuation)
    (hend : part.surface.drop l.consumed = []) :
    OnTrack m p chain rest (st.modifyLevel level (·.nextPart)) := by
  have htext : m.ahead (m.grammar.chainText rest) l =
      [] ++ m.ahead (m.grammar.chainText rest) l.nextPart := by
    rw [ahead_of_part hat.inflexion hat.part, if_neg hrole, hend]
  apply ht.modify (f := (·.nextPart)) hat.current hat.level ?_ ?_ htext
  · exact fun _ => rfl
  · exact isClosed_nextPart_iff hat.inflexion hat.part hrole

/-- To leave a level that is done keeps on track. -/
theorem leave (ht : OnTrack m p chain rest st) {level : Nat} (hcur : st.current = some level)
    (hl : st.levels[level]? = some l) (hdone : m.IsDone l) :
    OnTrack m p chain rest (st.leave level) := by
  have hdepth : depth st = level + 1 := by simp [depth, hcur]
  have hleft : depth (st.leave level) = level := by
    cases level <;> simp [depth, SearchState.leave]
  exact {
    placement := ht.placement
    links := ht.links
    derivations := ht.derivations
    stemPos := ht.stemPos
    pos := ht.pos
    text := ht.text
    opened := ht.opened
    closed := ht.closed
    turn := by
      have := ht.turn
      show depth (st.leave level) ≤ st.levels.length
      omega
    done := by
      intro n l' hn hl'
      -- This level is done, and those below have been before.
      rcases Nat.eq_or_lt_of_le (hleft ▸ hn) with rfl | hlt
      · obtain rfl : l = l' := Option.some.inj (hl.symm.trans hl')
        exact hdone
      · exact ht.done n l' (by omega) hl' }

/-- At a continuation the next inflexion of the chain is to be opened. -/
theorem atOpening (h : Spells m p stem sub chain) (ht : OnTrack m p chain rest st) {level : Nat}
    {i : Inflexion} {part : FlexPart} (hat : AtPart m st level l i part)
    (hrole : part.role = .continuation) :
    st.levels.length = level + 1 ∧ ∃ id rest', rest = id :: rest' ∧
      AtOpening m p chain id rest' (st.modifyLevel level (·.nextPart)) := by
  have hlt := (List.getElem?_eq_some_iff.1 hat.level).1
  have hopen : ¬ m.IsClosed l := by
    intro hclosed
    refine hclosed part ?_ hrole
    rw [drop_eq_cons hat.inflexion hat.part]
    exact List.mem_cons_self ..
  rw [ht.closed level l hat.level, not_or] at hopen
  have hlast : st.levels.length = level + 1 := by omega
  obtain ⟨id, rest', rfl⟩ := List.exists_cons_of_ne_nil hopen.2
  obtain ⟨i', hi', -, -, hsuffix⟩ := ht.exists_inflexion h (List.mem_of_getElem? hat.level)
  obtain rfl : i = i' := Option.some.inj (hat.inflexion.symm.trans hi')
  -- Behind its only continuation the last level is closed as well.
  have hclosed : ∀ l' ∈ (st.modifyLevel level (·.nextPart)).levels, m.IsClosed l' := by
    intro l' hl'
    obtain ⟨n, hn⟩ := List.getElem?_of_mem hl'
    obtain ⟨l₀, hl₀, rfl⟩ := SearchState.getElem?_modifyLevel.1 hn
    split
    · rename_i heq
      subst heq
      obtain rfl : l = l₀ := Option.some.inj (hat.level.symm.trans hl₀)
      exact isClosed_nextPart hat.inflexion hat.part hrole hsuffix.continuations
    · rename_i hne
      have := (List.getElem?_eq_some_iff.1 hl₀).1
      exact (ht.closed n l₀ hl₀).2 (.inl (by omega))
  have hahead : m.ahead (m.grammar.chainText (id :: rest')) l =
      m.grammar.chainText (id :: rest') ++
        m.ahead (m.grammar.chainText (id :: rest')) l.nextPart := by
    rw [ahead_of_part hat.inflexion hat.part, if_pos hrole]
  have hsame := st.sameChain_nextPart level
  refine ⟨hlast, id, rest', rfl, ?_⟩
  exact {
    placement := ht.placement
    links := by
      rw [← ht.links]
      exact congrArg (· ++ _) (st.map_modifyLevel level fun _ => rfl)
    derivations := ht.derivations.trans (congrArg _ hsame.chain.symm)
    stemPos := ht.stemPos
    pos := ht.pos
    text := by
      rw [aheadAll_congr hclosed _ (m.grammar.chainText (id :: rest'))]
      exact ht.text_modify hat.current hat.level hahead
    closed := hclosed }

/-- An affix is read character by character. -/
theorem exists_move_of_affix (ht : OnTrack m p chain rest st) {level : Nat} {i : Inflexion}
    {part : FlexPart} (hat : AtPart m st level l i part) (hmarker : part.role.isMarker = false) :
    ∃ st', Move m st st' ∧ OnTrack m p chain rest st' := by
  have hrole : part.role ≠ .continuation := by
    intro heq
    rw [heq] at hmarker
    exact Bool.false_ne_true hmarker.symm
  have hdrop := List.drop_eq_getElem?_toList_append (l := part.surface) (i := l.consumed)
  cases hc : part.surface[l.consumed]? with
  | none =>
    refine ⟨_, .endPart hat hmarker hc, ht.nextPart hat hrole ?_⟩
    rw [List.drop_eq_nil_iff]
    exact List.getElem?_eq_none_iff.1 hc
  | some c =>
    rw [hc, Option.toList_some, List.singleton_append] at hdrop
    let read (l : Level) : Level := { l with consumed := l.consumed + 1 }
    -- The level spells the character now, and what is behind it later.
    have htext (inner : List Char) : m.ahead inner l = [c] ++ m.ahead inner (read l) := by
      rw [ahead_of_part hat.inflexion hat.part,
        ahead_of_part (l := read l) hat.inflexion hat.part, if_neg hrole, if_neg hrole, hdrop]
      rfl
    have hword : st.wordChar? = some c := by
      have hfirst := congrArg (·[0]?) (ht.text_modify hat.current hat.level (htext _))
      simpa [SearchState.wordChar?, ht.placement] using hfirst
    refine ⟨_, .readChar hat hmarker hc (by simp [hword, agree]), ?_⟩
    exact ht.modify (f := read) hat.current hat.level (fun _ => rfl) Iff.rfl (htext _)

/-- At a continuation the next inflexion of the chain may be opened: the paradigm that is open
behind the chain is one that this level continues in. -/
theorem exists_move_of_continuation (h : Spells m p stem sub chain)
    (ht : OnTrack m p chain rest st) {level : Nat} {i : Inflexion} {part : FlexPart}
    (hat : AtPart m st level l i part) (hrole : part.role = .continuation) :
    ∃ st' rest', Move m st st' ∧ OnTrack m p chain rest' st' := by
  obtain ⟨hlast, id, rest', rfl, ho⟩ := ht.atOpening h hat hrole
  have hchain := (chain_append_of_links ho.links).symm
  obtain ⟨start, hopen, hfollow⟩ := h.legal _ id rest' hchain
  have hsub : start ∈ i.subsequent := by
    have hget : st.chain.getLast? = some l.link.inflexion := by
      rw [SearchState.chain, List.getLast?_map, List.getLast?_eq_getElem?, hlast,
        Nat.add_sub_cancel, hat.level]
      rfl
    rw [(st.sameChain_nextPart level).chain, Grammar.IsOpen, hget] at hopen
    obtain ⟨i', hi', -, hstart⟩ := hopen
    obtain rfl : i = i' := Option.some.inj (hat.inflexion.symm.trans hi')
    exact hstart
  have hid := ho.mem_mayFollow h hfollow
  exact ⟨_, rest', .openNext hat hrole hlast hsub hid, ho.onTrack h⟩

/-- The only boundary of a suffix is in front, and the stem does not begin with one: the stem never
has its turn again. -/
theorem handsOver_eq_false (h : Spells m p stem sub chain) (ht : OnTrack m p chain rest st)
    {level : Nat} {i : Inflexion} {part : FlexPart} (hat : AtPart m st level l i part)
    (hsuffix : i.IsSuffix) (hboundary : part.role.isBoundary = true) :
    handsOver st level l.part i = false := by
  have hzero : l.part = 0 := by
    by_contra hne
    obtain ⟨n, hn⟩ := Nat.exists_eq_succ_of_ne_zero hne
    have hpart : i.parts.tail[n]? = some part := by
      rw [List.getElem?_tail, ← Nat.succ_eq_add_one, ← hn]
      exact hat.part
    have := hsuffix.only part (List.mem_of_getElem? hpart)
    exact Bool.false_ne_true (this.symm.trans hboundary)
  have hplain : st.placement.startsWithBoundary = false := by
    obtain ⟨c, others, hstem⟩ := List.exists_cons_of_ne_nil h.stem_ne_nil
    have hc : c ≠ boundary := by
      intro heq
      apply h.plain
      rw [hstem, heq]
      exact List.mem_cons_self ..
    simp [Placement.startsWithBoundary, ht.placement, h.pattern, hstem, hc]
  have hself : i.startWithSelf = false := h.startWithSelf_eq_false hat.inflexion
  simp [handsOver, hzero, hplain, hself]

/-- In the level of the turn, each kind of part has a move that keeps on track. -/
theorem exists_move_of_part (h : Spells m p stem sub chain) (ht : OnTrack m p chain rest st)
    {level : Nat} {i : Inflexion} {part : FlexPart} (hat : AtPart m st level l i part) :
    ∃ st' rest', Move m st st' ∧ OnTrack m p chain rest' st' := by
  obtain ⟨i', hi', -, hwf, hsuffix⟩ := ht.exists_inflexion h (List.mem_of_getElem? hat.level)
  obtain rfl : i = i' := Option.some.inj (hat.inflexion.symm.trans hi')
  have hmem : part ∈ i.parts := List.mem_of_getElem? hat.part
  cases hmarker : part.role.isMarker with
  | false =>
    obtain ⟨st', hmove, ht'⟩ := ht.exists_move_of_affix hat hmarker
    exact ⟨st', rest, hmove, ht'⟩
  | true =>
    by_cases hcont : part.role = .continuation
    · exact ht.exists_move_of_continuation h hat hcont
    · -- Of the markers a suffix has only boundaries besides its continuation.
      have hboundary : part.role.isBoundary = true := by
        have hself : part.role ≠ .startWithSelf := hsuffix.self part hmem
        have hinc := List.any_eq_false.1 hsuffix.incorporates part hmem
        cases hrole : part.role <;> simp_all [Role.isMarker, Role.isBoundary]
      have hend : part.surface.drop l.consumed = [] := by
        rw [hwf.spelled part hmem (.inr hmarker), List.drop_nil]
      have hover := ht.handsOver_eq_false h hat hsuffix hboundary
      exact ⟨_, rest, .passMark hat (.inl ⟨hboundary, hover⟩), ht.nextPart hat hcont hend⟩

/-- A state on track has nothing but done levels once the turn comes back to the stem. -/
theorem current_ne_none (ht : OnTrack m p chain rest st) (hgo : m.canContinue st = true)
    (hknown : ∀ l ∈ st.levels, ∃ i, m.inflexionOf? l = some i) : st.current ≠ none := by
  intro hcur
  have hdone : ∀ l ∈ st.levels, m.IsDone l := by
    intro l hl
    obtain ⟨n, hn⟩ := List.getElem?_of_mem hl
    apply ht.done n l ?_ hn
    simp [depth, hcur]
  -- Nothing is spelled any more, so the word is at its end, and so is the last level.
  have hword : st.wordDone = true := by
    have htext := ht.text
    rw [aheadAll_eq_nil hdone, List.drop_eq_nil_iff] at htext
    simpa [SearchState.wordDone, ht.placement] using htext
  obtain ⟨last, hlast⟩ : ∃ last, st.levels.getLast? = some last :=
    ⟨_, List.getLast?_eq_some_getLast ht.opened⟩
  have hmem := List.mem_of_getLast? hlast
  obtain ⟨i, hi⟩ := hknown last hmem
  have hpart : m.partOf? last = none := by
    have hdrop := hdone last hmem
    rw [IsDone, Grammar.partsOf_eq hi, List.drop_eq_nil_iff] at hdrop
    simp [partOf?, hi, hdrop]
  simp [canContinue, hword, hlast, hpart] at hgo

/-- A state on track that is not at its end has a move that keeps on track. -/
theorem exists_move (h : Spells m p stem sub chain) (ht : OnTrack m p chain rest st)
    (hgo : m.canContinue st = true) :
    ∃ st' rest', Move m st st' ∧ OnTrack m p chain rest' st' := by
  have hknown : ∀ l ∈ st.levels, ∃ i, m.inflexionOf? l = some i := by
    intro l hl
    obtain ⟨i, hi, -⟩ := ht.exists_inflexion h hl
    exact ⟨i, hi⟩
  cases hcur : st.current with
  | none => exact absurd hcur (ht.current_ne_none hgo hknown)
  | some level =>
    have hlt : level < st.levels.length := by
      have := ht.turn
      simpa [depth, hcur, Nat.succ_le_iff] using this
    have hl := List.getElem?_eq_getElem hlt
    obtain ⟨i, hi⟩ := hknown _ (List.getElem_mem hlt)
    cases hpart : i.parts[st.levels[level].part]? with
    | none =>
      have hdone : m.IsDone st.levels[level] := by
        rw [IsDone, Grammar.partsOf_eq hi, List.drop_eq_nil_iff]
        exact List.getElem?_eq_none_iff.1 hpart
      exact ⟨_, rest, .leaveLevel hcur hl hi hpart, ht.leave hcur hl hdone⟩
    | some part => exact ht.exists_move_of_part h ⟨hcur, hl, hi, hpart⟩

end OnTrack

/-! ## The end of the track -/

namespace OnTrack

/-- At the end of the word no level spells anything more. -/
theorem ahead_eq_nil (ht : OnTrack m p chain rest st) (hword : st.wordDone = true)
    (hl : l ∈ st.levels) : m.ahead (m.grammar.chainText rest) l = [] := by
  apply ahead_eq_nil_of_aheadAll ?_ hl
  rw [← ht.text, List.drop_eq_nil_iff]
  simpa [SearchState.wordDone, ht.placement] using hword

/-- The search would go on if the last level were at any part: what it still spells is nothing, and
a part that spells nothing is passed. -/
theorem part_eq_none (h : Spells m p stem sub chain) (ht : OnTrack m p chain rest st) {last : Level}
    {i : Inflexion} (hlast : st.levels.getLast? = some last) (hi : m.inflexionOf? last = some i)
    (hword : st.wordDone = true) (hend : m.canContinue st = false) :
    i.parts[last.part]? = none := by
  have hhere := ht.ahead_eq_nil hword (List.mem_of_getLast? hlast)
  have hback : st.placement.endsWithBoundary = true := by
    simp [Placement.endsWithBoundary, ht.placement, h.pattern]
  cases hpart : i.parts[last.part]? with
  | none => rfl
  | some part =>
    have hat : m.partOf? last = some part := by simp [partOf?, hi, hpart]
    rw [ahead_of_part hi hpart] at hhere
    simp only [canContinue, hword, hlast, hat, if_true] at hend
    by_cases hcont : part.role = .continuation
    · simp [hcont] at hend
    · rw [if_neg hcont] at hhere
      have hread := List.drop_eq_nil_iff.1 (List.append_eq_nil_iff.1 hhere).1
      cases hrole : part.role <;> simp_all

/-- If the last level is at its end, there is no rest of the chain to open. -/
theorem rest_eq_nil (ht : OnTrack m p chain rest st) {last : Level} {i : Inflexion}
    (hlast : st.levels.getLast? = some last) (hi : m.inflexionOf? last = some i)
    (hpart : i.parts[last.part]? = none) : rest = [] := by
  have hclosed : m.IsClosed last := by
    unfold IsClosed
    rw [Grammar.partsOf_eq hi, List.drop_eq_nil_iff.2 (List.getElem?_eq_none_iff.1 hpart)]
    simp
  rw [List.getLast?_eq_getElem?] at hlast
  rcases (ht.closed _ last hlast).1 hclosed with hlt | hrest
  · have := (List.getElem?_eq_some_iff.1 hlast).1
    omega
  · exact hrest

/-- The search gives up on track only when the chain is matched to its end. -/
theorem isComplete (h : Spells m p stem sub chain) (ht : OnTrack m p chain rest st)
    (hend : m.canContinue st = false) :
    m.isComplete st = true ∧ st.levels.map (·.link) = chain.map (⟨·, []⟩) := by
  have hword : st.wordDone = true := by
    by_contra hword
    simp [canContinue, hword] at hend
  obtain ⟨last, hlast⟩ : ∃ last, st.levels.getLast? = some last :=
    ⟨_, List.getLast?_eq_some_getLast ht.opened⟩
  obtain ⟨i, hi, -⟩ := ht.exists_inflexion h (List.mem_of_getLast? hlast)
  have hnone := ht.part_eq_none h hlast hi hword hend
  obtain rfl := ht.rest_eq_nil hlast hi hnone
  have hmayEnd : mayEnd i = true := by
    have hid : chain.getLast? = some last.link.inflexion := by
      rw [← chain_append_of_links ht.links, List.append_nil, SearchState.chain,
        List.getLast?_map, hlast]
      rfl
    simp [mayEnd, h.last _ hid i hi]
  have hfinished : st.levels.all m.isFinished = true := by
    rw [List.all_eq_true]
    intro l hl
    obtain ⟨n, hn⟩ := List.getElem?_of_mem hl
    obtain ⟨j, hj, -, -, hsuffix⟩ := ht.exists_inflexion h hl
    have hclosed := (ht.closed n l hn).2 (.inr rfl)
    exact isFinished_of_ahead hj hclosed hsuffix.incorporates (ht.ahead_eq_nil hword hl)
  refine ⟨?_, by simpa using ht.links⟩
  simp [isComplete, hword, ht.stemPos, ht.placement, hlast, hi, hmayEnd, hfinished]

end OnTrack

end Matcher

end Morphology
