import Mathlib.Algebra.Order.BigOperators.Group.List
import Mathlib.Algebra.Order.Ring.Nat
import Mathlib.Data.List.Dedup
import Morphology.Analysis.Analyzer
import Morphology.Proofs.Search.Indices
import Morphology.Proofs.Search.Levels

/-!
# Termination of the search

Every search comes to an end, whatever the grammar: no inflexion is used more often than the limit
says, so there are only so many levels, and between two openings the search only moves on.  With
enough steps a search therefore finds everything that its start leads to.

## Main definitions

* `Matcher.Counted` — the inflexions of the levels are used as often as they may be
* `Matcher.work` — what is still to be matched

## Main statements

* `Matcher.Move.lex` — every move spends some work, or leaves a level
* `Matcher.acc_goes` — no search goes on forever
* `Matcher.exists_run` — a run with enough steps finds all that the start of its placement leads to
-/

namespace Morphology

universe u

/-! ## Bounds -/

/-- A list of items from a finite supply, each used at most `r` times, is short. -/
private theorem length_le_of_count_le {α : Type u} [DecidableEq α] {r : Nat} (supply : List α)
    {xs : List α} (hmem : ∀ x ∈ xs, x ∈ supply) (hcount : ∀ x, xs.count x ≤ r) :
    xs.length ≤ r * supply.length := by
  induction supply generalizing xs with
  | nil =>
    have hnil : xs = [] := List.eq_nil_iff_forall_not_mem.2 fun x hx =>
      List.not_mem_nil (hmem x hx)
    simp [hnil]
  | cons a supply ih =>
    -- Without its uses of `a`, the list has its items from the rest of the supply.
    have hothers : ∀ x ∈ xs.filter (· != a), x ∈ supply := by
      intro x hx
      obtain ⟨hx, hne⟩ := List.mem_filter.1 hx
      exact (List.mem_cons.1 (hmem x hx)).resolve_left (by simpa using hne)
    have hrest := ih hothers fun x =>
      (List.Sublist.count_le x List.filter_sublist).trans (hcount x)
    have hsplit : xs.length = xs.count a + (xs.filter (· != a)).length := by
      rw [List.count_eq_length_filter, ← List.countP_eq_length_filter,
        ← List.countP_eq_length_filter, List.length_eq_countP_add_countP (· == a)]
      congr 1
      exact List.countP_congr fun x _ => by simp
    have := hcount a
    rw [List.length_cons, Nat.mul_succ]
    omega

namespace Grammar

/-- The addresses of all inflexions. -/
def inflexionIds (g : Grammar) : List InflexionId :=
  g.paradigms.arena.toList.flatMap fun (h, p) => (List.range p.inflexions.length).map (⟨h, ·⟩)

theorem mem_inflexionIds {g : Grammar} {id : InflexionId} {i : Inflexion}
    (h : g.inflexion? id = some i) : id ∈ g.inflexionIds := by
  obtain ⟨p, hp, hi⟩ := paradigm?_of_inflexion? h
  refine List.mem_flatMap.2 ⟨(id.paradigm, p), Arena.mem_toList_iff.2 hp, ?_⟩
  exact List.mem_map.2 ⟨id.index, List.mem_range.2 (List.getElem?_eq_some_iff.1 hi).1, rfl⟩

end Grammar

/-- The number of characters and parts of some parts. -/
def partsSize (parts : List FlexPart) : Nat :=
  (parts.map fun p => p.surface.length + 1).sum

/-- No inflexion of a grammar is longer than all of them. -/
def Grammar.longest (g : Grammar) : Nat :=
  (g.inflexionIds.map fun id => ((g.inflexion? id).map fun i => partsSize i.parts).getD 0).sum

theorem Grammar.partsSize_le_longest {g : Grammar} {id : InflexionId} {i : Inflexion}
    (h : g.inflexion? id = some i) : partsSize i.parts ≤ g.longest := by
  apply List.le_sum_of_mem
  refine List.mem_map.2 ⟨id, mem_inflexionIds h, ?_⟩
  simp [h]

namespace Matcher

variable {m : Matcher} {st st' : SearchState} {level : Nat} {l : Level}

/-! ## Levels -/

/-- All levels have inflexions, and none is used more often than the limit says. -/
structure Counted (m : Matcher) (st : SearchState) : Prop where
  known : ∀ id ∈ st.chain, ∃ i, m.grammar.inflexion? id = some i
  repeats : ∀ id, st.chain.count id ≤ m.grammar.config.recursLimit

/-- The greatest number of levels. -/
def depthLimit (m : Matcher) : Nat :=
  m.grammar.config.recursLimit * m.grammar.inflexionIds.length

theorem Counted.start (m : Matcher) (p : Placement) : Counted m (.start p) :=
  ⟨by simp [SearchState.chain, SearchState.start], by simp [SearchState.chain, SearchState.start]⟩

theorem Counted.length_le (h : Counted m st) : st.levels.length ≤ m.depthLimit := by
  have hlen : st.chain.length = st.levels.length := List.length_map _
  rw [← hlen]
  apply length_le_of_count_le
  · intro id hid
    obtain ⟨i, hi⟩ := h.known id hid
    exact Grammar.mem_inflexionIds hi
  · exact h.repeats

/-- What is tried next (`reachable`) is not used up, and no link. -/
theorem proper_of_mem_reachable {slot : Bool} {depth : Nat} {h : Handle} {id : InflexionId}
    (hid : id ∈ m.reachable st slot depth h) : st.uses id < m.grammar.config.recursLimit ∧
      ∃ i, m.grammar.inflexion? id = some i ∧ i.isLink = false := by
  induction depth generalizing h with
  | zero => simp [reachable] at hid
  | succ depth ih =>
    rw [reachable] at hid
    split at hid
    · exact absurd hid List.not_mem_nil
    · split at hid
      · obtain ⟨j, -, hmem⟩ := List.mem_flatMap.1 hid
        split at hmem
        · exact absurd hmem List.not_mem_nil
        · rename_i i hi
          split at hmem
          · exact absurd hmem List.not_mem_nil
          · rename_i huses
            split at hmem
            · -- A link is followed to what is tried in its place.
              obtain ⟨next, -, hmem⟩ := List.mem_flatMap.1 hmem
              exact ih hmem
            · rename_i hlink
              obtain rfl := List.mem_singleton.1 hmem
              exact ⟨Nat.not_le.1 huses, i, hi, Bool.not_eq_true _ ▸ hlink⟩
      · exact absurd hid List.not_mem_nil

theorem Counted.move (h : Counted m st) (hmove : Move m st st') : Counted m st' := by
  rcases hmove.sameChain_or_opens with hsame | ⟨st₁, slot, h', id, hsame, -, -, hid, rfl⟩
  · exact ⟨hsame.chain ▸ h.known, hsame.chain ▸ h.repeats⟩
  · obtain ⟨huses, i, hi, -⟩ := proper_of_mem_reachable hid
    rw [uses_eq_count, hsame.chain] at huses
    -- The new inflexion is known and was not used up.
    refine ⟨fun x hx => ?_, fun x => ?_⟩
    · rw [openLevel_chain, hsame.chain] at hx
      rcases List.mem_append.1 hx with hx | hx
      · exact h.known x hx
      · rw [List.mem_singleton.1 hx]
        exact ⟨i, hi⟩
    · have hx := h.repeats x
      rw [openLevel_chain, hsame.chain, List.count_append, List.count_singleton]
      split
      · rename_i heq
        obtain rfl : id = x := by simpa using heq
        omega
      · omega

/-! ## Work -/

/-- What is still to be matched of a level. -/
def levelWork (m : Matcher) (l : Level) : Nat :=
  let parts := ((m.inflexionOf? l).map (·.parts)).getD []
  partsSize (parts.drop l.part) - min l.consumed ((parts[l.part]?).map (·.surface.length) |>.getD 0)

/-- What is still to be matched; a level that may be opened counts as much as the longest
inflexion. -/
def work (m : Matcher) (st : SearchState) : Nat :=
  (m.depthLimit - st.levels.length) * (m.grammar.longest + 1) + (st.levels.map m.levelWork).sum +
    (st.placement.pattern.length - st.stemPos) + if st.selfTried then 0 else 1

/-- How deep the level is that is matched next. -/
def depth (st : SearchState) : Nat :=
  match st.current with
  | none => 0
  | some level => level + 1

theorem levelWork_start {id : InflexionId} {i : Inflexion} (hi : m.grammar.inflexion? id = some i) :
    m.levelWork (.start id) ≤ m.grammar.longest := by
  have hlen := Grammar.partsSize_le_longest hi
  have hi' : m.inflexionOf? (.start id) = some i := hi
  simp only [levelWork, hi', Option.map_some, Option.getD_some]
  exact (Nat.sub_le _ _).trans hlen

/-- To leave a part is to spend its work. -/
theorem levelWork_next_lt {i : Inflexion} {part : FlexPart} {l' : Level}
    (hi : m.inflexionOf? l = some i) (hpart : i.parts[l.part]? = some part)
    (hsame : l'.link.inflexion = l.link.inflexion) (hnext : l'.part = l.part + 1)
    (hconsumed : l'.consumed = 0) : m.levelWork l' < m.levelWork l := by
  have hi' : m.inflexionOf? l' = some i := by
    rw [inflexionOf?, hsame]
    exact hi
  have hdrop : i.parts.drop l.part = part :: i.parts.drop (l.part + 1) := by
    obtain ⟨hlt, hget⟩ := List.getElem?_eq_some_iff.1 hpart
    rw [← hget, List.cons_getElem_drop_succ]
  simp only [levelWork, hi, hi', hnext, hconsumed, hdrop, hpart, partsSize, Option.map_some,
    Option.getD_some, List.map_cons, List.sum_cons, Nat.zero_min, Nat.sub_zero]
  omega

/-- To read a character of a part is to spend some of its work. -/
theorem levelWork_read_lt {i : Inflexion} {part : FlexPart} (hi : m.inflexionOf? l = some i)
    (hpart : i.parts[l.part]? = some part) (hlt : l.consumed < part.surface.length) :
    m.levelWork { l with consumed := l.consumed + 1 } < m.levelWork l := by
  have hi' : m.inflexionOf? { l with consumed := l.consumed + 1 } = some i := hi
  have hdrop : i.parts.drop l.part = part :: i.parts.drop (l.part + 1) := by
    obtain ⟨hlt, hget⟩ := List.getElem?_eq_some_iff.1 hpart
    rw [← hget, List.cons_getElem_drop_succ]
  simp only [levelWork, hi, hi', hdrop, hpart, partsSize, Option.map_some, Option.getD_some,
    List.map_cons, List.sum_cons]
  omega

private theorem sum_modify_lt {g : Level → Nat} {f : Level → Level} {levels : List Level} {n : Nat}
    (hl : levels[n]? = some l) (hlt : g (f l) < g l) :
    ((levels.modify n f).map g).sum < (levels.map g).sum := by
  induction levels generalizing n with
  | nil => simp at hl
  | cons l₀ levels ih =>
    cases n with
    | zero =>
      obtain rfl : l₀ = l := by simpa using hl
      simp only [List.modify_zero_cons, List.map_cons, List.sum_cons]
      omega
    | succ n =>
      have := ih (by simpa using hl)
      simp only [List.modify_succ_cons, List.map_cons, List.sum_cons]
      omega

theorem work_modifyLevel_lt {f : Level → Level} (hl : st.levels[level]? = some l)
    (hlt : m.levelWork (f l) < m.levelWork l) : m.work (st.modifyLevel level f) < m.work st := by
  have := sum_modify_lt hl hlt
  simp only [work, SearchState.modifyLevel_levels, List.length_modify,
    SearchState.modifyLevel_placement, SearchState.modifyLevel_stemPos]
  show _ + _ + _ + (if st.selfTried = true then 0 else 1) < _
  omega

theorem work_nextPart_lt {i : Inflexion} {part : FlexPart} (hat : AtPart m st level l i part) :
    m.work (st.modifyLevel level (·.nextPart)) < m.work st :=
  work_modifyLevel_lt hat.level (levelWork_next_lt hat.inflexion hat.part rfl rfl rfl)

/-- A level that is opened costs less than what was kept back for it: `openLevel` lowers the
`work`. -/
theorem work_openLevel_lt {id : InflexionId} (h : Counted m (m.openLevel st id)) :
    m.work (m.openLevel st id) < m.work st := by
  have hlen := h.length_le
  obtain ⟨i, hi⟩ := h.known id (by
    rw [openLevel_chain]
    exact List.mem_append_right _ (List.mem_singleton_self _))
  have hstart := levelWork_start hi
  rw [openLevel_levels, List.length_append, List.length_singleton] at hlen
  obtain ⟨left, hleft⟩ := Nat.exists_eq_add_of_le hlen
  -- One level fewer is kept back.
  have hbefore : m.depthLimit - st.levels.length = left + 1 := by omega
  have hafter : m.depthLimit - (st.levels.length + 1) = left := by omega
  simp only [work, openLevel_levels, List.length_append, List.length_singleton, List.map_append,
    List.sum_append, List.map_cons, List.map_nil, List.sum_cons, List.sum_nil, hbefore, hafter,
    Nat.succ_mul, openLevel_placement]
  show _ + _ + (st.placement.pattern.length - st.stemPos) +
    (if st.selfTried = true then 0 else 1) < _
  omega

private theorem work_past_lt (m : Matcher) (pos : Nat)
    (hlt : st.stemPos < st.placement.pattern.length) (current : Option Nat) :
    m.work { st with stemPos := st.stemPos + 1, pos := pos, current := current } < m.work st := by
  simp only [work]
  omega

private theorem work_markTried_lt (h : st.atFront) : m.work st.markTried < m.work st := by
  simp [work, SearchState.markTried, h.2.2]

/-- Every `Move` spends some work, or leaves a level. -/
theorem Move.lex (h : Counted m st) (hmove : Move m st st') :
    Prod.Lex (· < ·) (· < ·) (m.work st', depth st') (m.work st, depth st) := by
  have hcounted := h.move hmove
  have hstem {sub : SubLexeme} {c : Char} (hat : AtStem m st sub c) :
      st.stemPos < st.placement.pattern.length := (List.getElem?_eq_some_iff.1 hat.char).1
  cases hmove with
  | stemChar hat _ _ hread =>
    obtain ⟨pos, rfl⟩ := eq_of_mem_stepStemChar hread
    exact .left _ _ (work_past_lt m _ (hstem hat) _)
  | firstChar hat _ hfront _ hread =>
    obtain ⟨pos, rfl⟩ := eq_of_mem_stepStemChar hread
    have hlt : st.markTried.stemPos < st.markTried.placement.pattern.length := hstem hat
    have hpast := work_past_lt m pos hlt st.current
    exact .left _ _ (hpast.trans (work_markTried_lt hfront))
  | openFront _ _ hfront _ _ _ =>
    exact .left _ _ ((work_openLevel_lt hcounted).trans (work_markTried_lt hfront))
  | passFront _ _ hfront _ => exact .left _ _ (work_markTried_lt hfront)
  | openStem hat _ _ =>
    exact .left _ _ ((work_openLevel_lt hcounted).trans (work_past_lt m _ (hstem hat) _))
  | enterFirst hat _ => exact .left _ _ (work_past_lt m _ (hstem hat) _)
  | @leaveLevel level _ _ hcur _ _ _ =>
    -- Nothing is matched, but the level above comes next.
    have hdepth : depth (st.leave level) < depth st := by
      simp only [depth, SearchState.leave, hcur]
      cases level with
      | zero => simp
      | succ n => simp
    exact .right _ hdepth
  | handOver hat _ _ => exact .left _ _ (work_nextPart_lt hat)
  | passMark hat _ => exact .left _ _ (work_nextPart_lt hat)
  | enterNext hat _ _ => exact .left _ _ (work_nextPart_lt hat)
  | openNext hat _ _ _ _ =>
    exact .left _ _ ((work_openLevel_lt hcounted).trans (work_nextPart_lt hat))
  | @incorporate level l i part sub length hat _ _ =>
    exact .left _ _ (work_modifyLevel_lt (f := (·.incorporate sub)) hat.level
      (levelWork_next_lt hat.inflexion hat.part rfl rfl rfl))
  | endPart hat _ _ => exact .left _ _ (work_nextPart_lt hat)
  | @readChar level l i part c hat _ hc _ =>
    exact .left _ _ (work_modifyLevel_lt (f := fun l => { l with consumed := l.consumed + 1 })
      hat.level (levelWork_read_lt hat.inflexion hat.part (List.getElem?_eq_some_iff.1 hc).1))

/-- No search goes on forever. -/
theorem acc_goes (h : Counted m st) : Acc (fun b a => m.Goes a b) st := by
  have hwf : WellFounded (InvImage (Prod.Lex (· < ·) (· < ·))
      fun st : SearchState => (m.work st, depth st)) :=
    InvImage.wf _ (WellFounded.prod_lex Nat.lt_wfRel.wf Nat.lt_wfRel.wf)
  -- Work that is spent does not come back, and levels are left from the inside.
  induction st using hwf.induction with
  | _ st ih =>
    apply Acc.intro
    intro st' hgo
    have hmove := mem_step_iff.1 hgo.2
    exact ih st' (hmove.lex h) (h.move hmove)

/-! ## Exploring everything -/

variable {host : List Char} {maxEdits : Nat}

/-- Given `n` steps more than are left in the end, the search comes to an end with the states
`states`, having found `results`. -/
def Explores (m : Matcher) (host : List Char) (maxEdits : Nat) (states : List SearchState) (n : Nat)
    (results : List Wordform) : Prop :=
  ∀ steps found stack, m.explore host maxEdits (n + steps) found (states ++ stack) =
    m.explore host maxEdits steps (results.reverse ++ found) stack

theorem Explores.append {states states' : List SearchState} {n n' : Nat}
    {results results' : List Wordform} (h : Explores m host maxEdits states n results)
    (h' : Explores m host maxEdits states' n' results') :
    Explores m host maxEdits (states ++ states') (n + n') (results ++ results') := by
  intro steps found stack
  rw [List.append_assoc, Nat.add_assoc, h, h', List.reverse_append, List.append_assoc]

/-- A state that does not go on forever is explored in a number of steps, and all that it leads to
is found. -/
theorem exists_explores (host : List Char) (maxEdits : Nat)
    (hacc : Acc (fun b a => m.Goes a b) st) :
    ∃ n results, Explores m host maxEdits [st] n results ∧
      ∀ w, w ∈ results ↔ m.Yields host maxEdits st w := by
  induction hacc with
  | intro st _ ih =>
    cases hgo : m.canContinue st with
    | false =>
      -- A state that does not go on is accepted or given up in a single step.
      refine ⟨1, (m.accept? host maxEdits st).toList, fun steps found stack => ?_, fun w => ?_⟩
      · have hrev : (m.accept? host maxEdits st).toList.reverse =
            (m.accept? host maxEdits st).toList := by
          cases m.accept? host maxEdits st <;> rfl
        rw [Nat.add_comm, List.singleton_append, explore, hgo, hrev]
        rfl
      · rw [yields_iff]
        simp [hgo]
    | true =>
      -- The states that this one leads to are explored one after the other.
      have hlist (states : List SearchState) (hsub : ∀ st' ∈ states, st' ∈ m.step st) :
          ∃ n results, Explores m host maxEdits states n results ∧
            ∀ w, w ∈ results ↔ ∃ st' ∈ states, m.Yields host maxEdits st' w := by
        induction states with
        | nil => exact ⟨0, [], fun _ _ _ => by simp, by simp⟩
        | cons st' states ihs =>
          obtain ⟨n, results, hexplores, hresults⟩ := ih st' ⟨hgo, hsub st' (List.mem_cons_self ..)⟩
          obtain ⟨n', results', hexplores', hresults'⟩ :=
            ihs fun s hs => hsub s (List.mem_cons_of_mem _ hs)
          refine ⟨n + n', results ++ results', hexplores.append hexplores', fun w => ?_⟩
          rw [List.mem_append, hresults, hresults']
          simp
      -- One step is for the state itself, the others are for those it leads to.
      obtain ⟨n, results, hexplores, hresults⟩ := hlist (m.step st) fun _ h => h
      refine ⟨n + 1, results, fun steps found stack => ?_, fun w => ?_⟩
      · rw [Nat.add_right_comm, List.singleton_append, explore, if_pos hgo]
        exact hexplores steps found stack
      · rw [hresults, yields_iff]
        simp [hgo]

/-- A run with enough steps finds all that the start of its placement `Yields`. -/
theorem exists_run (m : Matcher) (host : List Char) (maxEdits : Nat) (p : Placement) :
    ∃ n, ∀ budget : Budget, n ≤ budget.remaining →
      (m.run host maxEdits p budget).2 = ⟨budget.remaining - n, budget.exhausted⟩ ∧
      ∀ w, w ∈ (m.run host maxEdits p budget).1 ↔ m.Yields host maxEdits (.start p) w := by
  obtain ⟨n, results, hexplores, hresults⟩ :=
    exists_explores host maxEdits (acc_goes (.start m p))
  refine ⟨n, fun budget hn => ?_⟩
  have heq : m.explore host maxEdits budget.remaining [] [.start p] =
      (results, budget.remaining - n, true) := by
    have := hexplores (budget.remaining - n) [] []
    rw [Nat.add_sub_cancel' hn] at this
    rw [List.append_nil] at this
    rw [this, explore]
    simp
  simp [run, heq, hresults]

end Matcher

namespace Analyzer

open Matcher (exists_run)

/-- With enough steps `runAll` tries all placements. -/
theorem exists_runAll (m : Matcher) (word : List Char) (maxEdits : Nat)
    (placements : List Placement) : ∃ n, ∀ budget : Budget, budget.exhausted = false →
      n ≤ budget.remaining → ∀ w, w ∈ (runAll m word maxEdits placements budget).1 ↔
        ∃ p ∈ placements, m.Yields word maxEdits (.start p) w := by
  induction placements with
  | nil => exact ⟨0, by simp [runAll]⟩
  | cons p rest ih =>
    obtain ⟨n, hrun⟩ := exists_run m word maxEdits p
    obtain ⟨n', hrest⟩ := ih
    refine ⟨n + n', fun budget hexhausted hn w => ?_⟩
    -- What the first run leaves is enough for the others.
    obtain ⟨hleft, hfound⟩ := hrun budget (by omega)
    have hmore := hrest ⟨budget.remaining - n, budget.exhausted⟩ hexhausted (by
      show n' ≤ budget.remaining - n
      omega) w
    simp only [runAll, hleft, hexhausted, Bool.false_eq_true, if_false] at hmore ⊢
    rw [List.mem_append, hfound, hmore]
    simp

/-- With enough steps a pass finds all that its placements lead to. -/
theorem exists_pass (a : Analyzer) (word : List Char) (maxEdits : Nat) :
    ∃ n, ∀ budget : Budget, budget.exhausted = false → n ≤ budget.remaining →
      ∀ w, w ∈ (a.pass word maxEdits budget).1 ↔
        ∃ p ∈ a.placements word maxEdits, a.matcher.Yields word maxEdits (.start p) w :=
  exists_runAll a.matcher word maxEdits (a.placements word maxEdits)

end Analyzer

end Morphology
