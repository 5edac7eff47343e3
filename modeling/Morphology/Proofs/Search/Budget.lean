import Morphology.Proofs.Search.Termination

/-!
# What a budget does to a search

A budget only cuts a search short.  The states looked at with fewer steps are the first of those
looked at with more, so that the wordforms found are the first ones too; and with enough steps every
search comes to its end.

## Main definitions

* `Matcher.visit` — the states looked at in a number of steps, and those left waiting
* `Matcher.result?` — the wordform found in a state
* `Matcher.Searches` — a search finds what is found in the states that it looks at
* `Matcher.OnlyCut` — a budget only cuts a search short

## Main statements

* `Matcher.visit_add`, `Matcher.visit_append` — further steps and further states
* `Matcher.explore_eq` — an exploration finds what is found in the states that it looks at
* `Matcher.exists_waiting_eq_nil` — with enough steps no state is left waiting
* `Analyzer.budget_only_cuts` — a budget only cuts the runs and the passes of an analyzer short
-/

namespace Morphology

namespace Matcher

variable {m : Matcher} {host : List Char} {maxEdits : Nat}

/-! ## States looked at -/

/-- The states that come on the stack when a state is looked at. -/
def next (m : Matcher) (st : SearchState) : List SearchState :=
  if m.canContinue st then m.step st else []

/-- The wordform found when a state is looked at. -/
def result? (m : Matcher) (host : List Char) (maxEdits : Nat) (st : SearchState) :
    Option Wordform :=
  if m.canContinue st then none else m.accept? host maxEdits st

/-- The states looked at in a number of steps, the first one in front, and those left waiting. -/
def visit (m : Matcher) : (steps : Nat) → List SearchState → List SearchState × List SearchState
  | _, [] => ([], [])
  | 0, st :: stack => ([], st :: stack)
  | steps + 1, st :: stack =>
    let (done, waiting) := m.visit steps (m.next st ++ stack)
    (st :: done, waiting)

@[simp] theorem visit_nil (m : Matcher) (steps : Nat) : m.visit steps [] = ([], []) := by
  cases steps <;> rfl

@[simp] theorem visit_zero (m : Matcher) (stack : List SearchState) :
    m.visit 0 stack = ([], stack) := by
  cases stack <;> rfl

/-- No more states are looked at than there are steps. -/
theorem length_visit_le (m : Matcher) (steps : Nat) (stack : List SearchState) :
    (m.visit steps stack).1.length ≤ steps := by
  fun_induction visit m steps stack with
  | case1 => exact Nat.zero_le _
  | case2 => exact Nat.le_refl _
  | case3 steps st stack done waiting heq ih =>
    rw [heq] at ih
    exact Nat.succ_le_succ ih

/-- Steps are left only if no state is waiting. -/
theorem length_visit_of_waiting {steps : Nat} {stack : List SearchState}
    (h : (m.visit steps stack).2 ≠ []) : (m.visit steps stack).1.length = steps := by
  fun_induction visit m steps stack with
  | case1 => exact absurd rfl h
  | case2 => rfl
  | case3 steps st stack done waiting heq ih =>
    rw [heq] at ih
    exact congrArg (· + 1) (ih h)

/-- Further steps go on with the states left waiting. -/
theorem visit_add (m : Matcher) (steps more : Nat) (stack : List SearchState) :
    m.visit (steps + more) stack =
      ((m.visit steps stack).1 ++ (m.visit more (m.visit steps stack).2).1,
        (m.visit more (m.visit steps stack).2).2) := by
  fun_induction visit m steps stack with
  | case1 => simp
  | case2 => simp
  | case3 steps st stack done waiting heq ih =>
    rw [heq] at ih
    rw [Nat.succ_add, visit, ih]
    rfl

/-- The states looked at are reached from those that the search begins with. -/
theorem exists_reaches_of_mem_visit {steps : Nat} {stack : List SearchState} {st : SearchState}
    (h : st ∈ (m.visit steps stack).1) : ∃ first ∈ stack, m.Reaches first st := by
  fun_induction visit m steps stack with
  | case1 => exact absurd h List.not_mem_nil
  | case2 => exact absurd h List.not_mem_nil
  | case3 steps top stack done waiting heq ih =>
    rcases List.mem_cons.1 h with rfl | h
    · exact ⟨st, List.mem_cons_self .., .refl⟩
    · rw [heq] at ih
      obtain ⟨first, hfirst, hreach⟩ := ih h
      rcases List.mem_append.1 hfirst with hfirst | hfirst
      · -- A state that comes on the stack is one step behind the one looked at.
        unfold next at hfirst
        split at hfirst
        · rename_i hgo
          exact ⟨top, List.mem_cons_self .., .head ⟨hgo, hfirst⟩ hreach⟩
        · exact absurd hfirst List.not_mem_nil
      · exact ⟨first, List.mem_cons_of_mem _ hfirst, hreach⟩

/-- When no state is left waiting, further steps change nothing. -/
theorem visit_eq_of_le {n steps : Nat} {stack : List SearchState} (h : (m.visit n stack).2 = [])
    (hle : n ≤ steps) : m.visit steps stack = m.visit n stack := by
  obtain ⟨more, rfl⟩ := Nat.exists_eq_add_of_le hle
  rw [visit_add, h, visit_nil, List.append_nil, ← h]

/-- States that wait below others come next, when nothing is left of those. -/
theorem visit_append (m : Matcher) (steps : Nat) (stack below : List SearchState) :
    m.visit steps (stack ++ below) =
      if (m.visit steps stack).2 = [] then
        ((m.visit steps stack).1 ++ (m.visit (steps - (m.visit steps stack).1.length) below).1,
          (m.visit (steps - (m.visit steps stack).1.length) below).2)
      else ((m.visit steps stack).1, (m.visit steps stack).2 ++ below) := by
  fun_induction visit m steps stack with
  | case1 => simp
  | case2 => simp
  | case3 steps st stack done waiting heq ih =>
    rw [heq] at ih
    rw [List.cons_append, visit, ← List.append_assoc, ih]
    by_cases hdone : waiting = []
    · simp [hdone]
    · simp [hdone]

/-- An exploration finds what is found in the states that it looks at. -/
theorem explore_eq (m : Matcher) (host : List Char) (maxEdits steps : Nat) (found : List Wordform)
    (stack : List SearchState) :
    m.explore host maxEdits steps found stack =
      (found.reverse ++ (m.visit steps stack).1.filterMap (m.result? host maxEdits),
        steps - (m.visit steps stack).1.length, (m.visit steps stack).2.isEmpty) := by
  fun_induction explore m host maxEdits steps found stack with
  | case1 => simp
  | case2 => simp
  | case3 steps found st stack hgo ih =>
    have hnext : m.next st = m.step st := if_pos hgo
    have hresult : m.result? host maxEdits st = none := if_pos hgo
    rw [ih, visit, hnext]
    simp [hresult]
  | case4 steps found st stack hend ih =>
    have hnext : m.next st = [] := if_neg hend
    have hresult : m.result? host maxEdits st = m.accept? host maxEdits st := if_neg hend
    rw [ih, visit, hnext]
    cases hw : m.accept? host maxEdits st <;> simp [hresult, hw]

/-! ## Searches -/

/-- A search, begun with some states, finds what is found in the states that it looks at, and its
budget says how many those are. -/
def Searches (m : Matcher) (host : List Char) (maxEdits : Nat) (starts : List SearchState)
    (search : Budget → List Wordform × Budget) : Prop :=
  ∀ steps, search (.fresh steps) =
    ((m.visit steps starts).1.filterMap (m.result? host maxEdits),
      ⟨steps - (m.visit steps starts).1.length, !(m.visit steps starts).2.isEmpty⟩)

theorem searches_run (m : Matcher) (host : List Char) (maxEdits : Nat) (p : Placement) :
    m.Searches host maxEdits [.start p] (m.run host maxEdits p) := by
  intro steps
  simp [run, Budget.fresh, explore_eq]

theorem searches_runAll (m : Matcher) (host : List Char) (maxEdits : Nat)
    (placements : List Placement) :
    m.Searches host maxEdits (placements.map .start)
      (Analyzer.runAll m host maxEdits placements) := by
  induction placements with
  | nil =>
    intro steps
    simp [Analyzer.runAll, Budget.fresh]
  | cons p rest ih =>
    intro steps
    have hfirst := searches_run m host maxEdits p steps
    have happend := visit_append m steps [.start p] (rest.map .start)
    simp only [Analyzer.runAll, hfirst, List.map_cons]
    rw [List.singleton_append] at happend
    rw [happend]
    -- The placements behind the first are tried with the steps that it leaves.
    by_cases hdone : (m.visit steps [.start p]).2 = []
    · have hrest := ih (steps - (m.visit steps [.start p]).1.length)
      rw [Budget.fresh] at hrest
      simp [hdone, hrest, Nat.sub_sub]
    · have hwaiting : (m.visit steps [.start p]).2.isEmpty = false :=
        List.isEmpty_eq_false_iff.2 hdone
      simp [hdone, hwaiting]

/-- A search that comes to its end finds the same with more steps. -/
theorem Searches.add {starts : List SearchState} {search : Budget → List Wordform × Budget}
    (hsearch : m.Searches host maxEdits starts search) {steps left : Nat} {found : List Wordform}
    (h : search (.fresh steps) = (found, .fresh left)) (more : Nat) :
    search (.fresh (steps + more)) = (found, .fresh (left + more)) := by
  have hlen := length_visit_le m steps starts
  rw [hsearch] at h
  obtain ⟨hfound, hleft, hwaiting⟩ : _ ∧ steps - (m.visit steps starts).1.length = left ∧
      (m.visit steps starts).2 = [] := by
    simpa [Budget.fresh] using h
  rw [hsearch, visit_eq_of_le hwaiting (Nat.le_add_right steps more), hfound, hwaiting, ← hleft,
    Nat.sub_add_comm hlen]
  rfl

/-! ## What a budget does -/

/-- With enough steps no state is left waiting. -/
theorem exists_waiting_eq_nil (m : Matcher) (placements : List Placement) :
    ∃ n, (m.visit n (placements.map .start)).2 = [] := by
  induction placements with
  | nil => exact ⟨0, rfl⟩
  | cons p rest ih =>
    obtain ⟨n, results, hexplores, -⟩ := exists_explores [] 0 (acc_goes (.start m p))
    obtain ⟨n', hrest⟩ := ih
    have hfirst : (m.visit n [.start p]).2 = [] := by
      have hend := hexplores 0 [] []
      rw [explore_eq, explore_eq] at hend
      simpa using congrArg (·.2.2) hend
    have hlen := length_visit_le m n [.start p]
    -- The first placement takes its steps, so that enough are left for the others.
    have happend := visit_append m (n + n') [.start p] (rest.map .start)
    rw [visit_eq_of_le hfirst (Nat.le_add_right n n'), if_pos hfirst] at happend
    refine ⟨n + n', ?_⟩
    rw [List.map_cons, ← List.singleton_append, happend, visit_eq_of_le hrest (by omega)]
    exact hrest

/-- A search that is begun with some states comes to an end of its own, and a budget only cuts it
short: what it finds with fewer steps comes first with more, the budget left says how many states
are looked at, and it is exhausted if a state is left waiting. -/
structure OnlyCut (m : Matcher) (host : List Char) (maxEdits : Nat) (starts : List SearchState)
    (search : Budget → List Wordform × Budget) : Prop where
  ends : ∃ n, ∀ steps, n ≤ steps → (search (.fresh steps)).2.exhausted = false ∧
    (search (.fresh steps)).1 = (search (.fresh n)).1
  first : ∀ fewer steps, fewer ≤ steps →
    (search (.fresh fewer)).1 <+: (search (.fresh steps)).1
  whole : ∀ fewer steps, fewer ≤ steps → (search (.fresh fewer)).2.exhausted = false →
    (search (.fresh fewer)).1 = (search (.fresh steps)).1
  found : ∀ steps, (search (.fresh steps)).1 =
    (m.visit steps starts).1.filterMap (m.result? host maxEdits)
  spent : ∀ steps, (search (.fresh steps)).2.remaining + (m.visit steps starts).1.length = steps
  exhausted : ∀ steps, (search (.fresh steps)).2.exhausted = true ↔ (m.visit steps starts).2 ≠ []
  lacking : ∀ steps, (search (.fresh steps)).2.exhausted = true →
    (search (.fresh steps)).2.remaining = 0

theorem Searches.onlyCut (placements : List Placement) {search : Budget → List Wordform × Budget}
    (h : m.Searches host maxEdits (placements.map .start) search) :
    m.OnlyCut host maxEdits (placements.map .start) search := by
  have hexhausted (steps : Nat) : (search (.fresh steps)).2.exhausted = true ↔
      (m.visit steps (placements.map .start)).2 ≠ [] := by
    simp [h steps]
  -- Once no state is left waiting, further steps change nothing.
  have hwhole {fewer steps : Nat} (hle : fewer ≤ steps)
      (hfewer : (m.visit fewer (placements.map .start)).2 = []) :
      (search (.fresh fewer)).1 = (search (.fresh steps)).1 := by
    rw [h, h, visit_eq_of_le hfewer hle]
  obtain ⟨n, hn⟩ := exists_waiting_eq_nil m placements
  exact {
    ends := by
      refine ⟨n, fun steps hle => ⟨?_, (hwhole hle hn).symm⟩⟩
      simp [h steps, visit_eq_of_le hn hle, hn]
    first := by
      intro fewer steps hle
      -- With more steps the same states are visited first.
      obtain ⟨more, rfl⟩ := Nat.exists_eq_add_of_le hle
      rw [h, h, visit_add, List.filterMap_append]
      exact List.prefix_append _ _
    whole := by
      intro fewer steps hle hfewer
      -- A budget that was not used up left nothing waiting.
      refine hwhole hle (not_not.1 fun hne => ?_)
      rw [(hexhausted fewer).2 hne] at hfewer
      exact absurd hfewer (by decide)
    found := fun steps => by rw [h]
    spent := by
      intro steps
      rw [h]
      exact Nat.sub_add_cancel (length_visit_le m steps _)
    exhausted := hexhausted
    lacking := by
      -- As long as a state waits, every step was spent.
      intro steps hsteps
      rw [h]
      exact Nat.sub_eq_zero_of_le (length_visit_of_waiting ((hexhausted steps).1 hsteps)).ge }

end Matcher

theorem Analyzer.searches_pass (a : Analyzer) (word : List Char) (maxEdits : Nat) :
    a.matcher.Searches word maxEdits ((a.placements word maxEdits).map .start)
      (a.pass word maxEdits) :=
  Matcher.searches_runAll a.matcher word maxEdits (a.placements word maxEdits)

/-- **Budgets.**  A budget only cuts the runs and the passes of an analyzer short: `OnlyCut` holds
of `run` and of `pass`. -/
theorem Analyzer.budget_only_cuts (a : Analyzer) (host : List Char) (maxEdits : Nat) :
    (∀ p, a.matcher.OnlyCut host maxEdits [.start p] (a.matcher.run host maxEdits p)) ∧
      a.matcher.OnlyCut host maxEdits ((a.placements host maxEdits).map .start)
        (a.pass host maxEdits) :=
  ⟨fun p => Matcher.Searches.onlyCut [p]
      (Matcher.searches_run a.matcher host maxEdits p),
    (a.searches_pass host maxEdits).onlyCut _⟩

end Morphology
